import Borealis.Anno.Scanning
import Borealis.Anno.Reading

/-!
# What the rules cannot spell

A text that the parser accepts without a floating number goes through an automaton that knows only
whether an operand or an operator comes next (`Mode`).  The automaton refuses a unary operator
right after a unary operator, a point right behind digits, and a closing bracket where an operand
is due; so an expression that is written with one of these is not accepted, or is read with a
floating number in it.

## Strategy

`mode_places` takes the automaton through every token, and `Places.expr` through every rule.  The
only token that needs more than the rules of `Peg.Scans` is the integer: its rule comes after the
one for floating numbers, which takes every run of digits with a point behind it.
`Rendering.spelled_of_accepts` takes the automaton through the text of an expression.
-/

namespace Borealis.Anno

open Peg

/-! ## The automaton -/

/-- What has been read: nothing of an operand yet, a unary operator, the digits of a number, or an
operand. -/
inductive Mode
  | operand
  | signed
  | number
  | after
deriving DecidableEq

def isSign (c : Char) : Bool :=
  c == '*' || c == '-' || c == '!' || c == '~'

def Mode.step (q : Mode) (c : Char) : Option Mode :=
  if isSpace c then some (if q = .number then .after else q)
  else if isDigit c then some (if q = .after then .after else .number)
  else if isIdent2 c || c == '\\' || c == '@' then some .after
  else if c == '.' then (if q = .number then none else some .operand)
  else if c == ')' || c == ']' then
    match q with
    | .number => some .after
    | .after => some .after
    | _ => none
  else if isSign c then
    match q with
    | .operand => some .signed
    | .signed => none
    | _ => some .operand
  else some .operand

/-- An operand may come next. -/
def Start (q : Mode) (_ : List Char) : Prop :=
  q = .operand ∨ q = .signed

def Operand (q : Mode) (_ : List Char) : Prop :=
  q = .operand

/-- An operand has been read, to its end. -/
def Ended (q : Mode) (rest : List Char) : Prop :=
  q = .after ∨ q = .number ∧ rest.head? ≠ some '.'

/-! ## Floating numbers -/

/-- A tree with a floating number in it. -/
inductive HasDouble : Production → Prop
  | doubleConstant (text : List Char) : HasDouble (.doubleConstant text)
  | productionList {data : List Production} {arg : Production} (hmem : arg ∈ data)
      (harg : HasDouble arg) : HasDouble (.productionList data)
  | left (code : BinOpcode) {op0 : Production} (op1 : Production) (hop0 : HasDouble op0) :
      HasDouble (.binary code op0 op1)
  | right (code : BinOpcode) (op0 : Production) {op1 : Production} (hop1 : HasDouble op1) :
      HasDouble (.binary code op0 op1)
  | unary (code : UnOpcode) {op : Production} (hop : HasDouble op) : HasDouble (.unary code op)

/-- The stack holds a floating number. -/
def Spoiled (stack : ExprStack) : Prop :=
  ∃ tree ∈ stack, HasDouble tree

theorem Spoiled.push {stack : ExprStack} (hstack : Spoiled stack) (tree : Production) :
    Spoiled (tree :: stack) := by
  obtain ⟨tree', hmem, htree'⟩ := hstack
  exact ⟨tree', List.mem_cons_of_mem tree hmem, htree'⟩

theorem HasDouble.toList {tree : Production} (htree : HasDouble tree) :
    ∃ arg ∈ tree.toList, HasDouble arg := by
  cases htree with
  | productionList hmem harg => exact ⟨_, hmem, harg⟩
  | doubleConstant text => exact ⟨_, List.mem_singleton.mpr rfl, .doubleConstant text⟩
  | left code op1 hop0 => exact ⟨_, List.mem_singleton.mpr rfl, .left code op1 hop0⟩
  | right code op0 hop1 => exact ⟨_, List.mem_singleton.mpr rfl, .right code op0 hop1⟩
  | unary code hop => exact ⟨_, List.mem_singleton.mpr rfl, .unary code hop⟩

/-- An action that pushes a tree, or stops. -/
theorem Spoiled.of_push {action : List Char → ExprStack → Option ExprStack}
    (haction : ∀ text stack stack', action text stack = some stack' →
      ∃ tree, stack' = tree :: stack) :
    ∀ text stack stack', action text stack = some stack' → Spoiled stack → Spoiled stack' := by
  intro text stack stack' h hstack
  obtain ⟨tree, rfl⟩ := haction text stack stack' h
  exact hstack.push tree

theorem pushInteger_pushes : ∀ text stack stack', pushInteger text stack = some stack' →
    ∃ tree, stack' = tree :: stack := by
  intro text stack stack' h
  simp only [pushInteger] at h
  split at h
  · exact ⟨_, (Option.some.inj h).symm⟩
  · simp at h

theorem pushBool_pushes : ∀ text stack stack', pushBool text stack = some stack' →
    ∃ tree, stack' = tree :: stack := by
  intro text stack stack' h
  simp only [pushBool] at h
  split at h
  · exact ⟨_, (Option.some.inj h).symm⟩
  · simp at h

theorem pushDouble_pushes : ∀ text stack stack', pushDouble text stack = some stack' →
    ∃ tree, stack' = tree :: stack :=
  fun _ _ _ h => ⟨_, (Option.some.inj h).symm⟩

theorem pushString_pushes : ∀ text stack stack', pushString text stack = some stack' →
    ∃ tree, stack' = tree :: stack :=
  fun _ _ _ h => ⟨_, (Option.some.inj h).symm⟩

theorem pushVariableRule_spoiled : Preserves Spoiled pushVariableRule :=
  (identifier_preserves.ifapply (Spoiled.of_push pushString_pushes)).pad

theorem opBaction_spoiled (code : BinOpcode) : ∀ text stack stack',
    opBaction code text stack = some stack' → Spoiled stack → Spoiled stack' := by
  rintro text stack stack' haction ⟨tree, hmem, htree⟩
  rcases stack with _ | ⟨rhs, _ | ⟨lhs, stack⟩⟩
  · simp [opBaction] at haction
  · simp [opBaction] at haction
  · obtain rfl : _ = stack' := Option.some.inj haction
    rcases List.mem_cons.mp hmem with rfl | hmem
    · exact ⟨_, List.mem_cons_self, .right code lhs htree⟩
    · rcases List.mem_cons.mp hmem with rfl | hmem
      · exact ⟨_, List.mem_cons_self, .left code rhs htree⟩
      · exact ⟨tree, List.mem_cons_of_mem _ hmem, htree⟩

/-- A floating number never leaves the stack. -/
theorem spoiled_invariant : Invariant Spoiled where
  primitive := by
    refine Preserves.choice fun parser hparser => ?_
    simp only [List.mem_cons, List.not_mem_nil, or_false] at hparser
    rcases hparser with rfl | rfl | rfl | rfl | rfl | rfl
    · exact (floating_preserves.ifapply (Spoiled.of_push pushDouble_pushes)).pad
    · exact (integer_preserves.ifapply (Spoiled.of_push pushInteger_pushes)).pad
    · exact (boolean_preserves.ifapply (Spoiled.of_push pushBool_pushes)).pad
    · exact pushVariableRule_spoiled
    · exact (((Preserves.char _).seq identifier_preserves).ifapply
        (Spoiled.of_push pushString_pushes)).pad
    · exact (((Preserves.char _).seq identifier_preserves).ifapply
        (Spoiled.of_push pushString_pushes)).pad
  property := ((Invariant.chpad '.').seq pushVariableRule_spoiled).ifapply (opBaction_spoiled _)
  indirectProperty :=
    ((Invariant.strpad _).seq pushVariableRule_spoiled).ifapply (opBaction_spoiled _)
  emptyList text stack stack' haction hstack := by
    obtain rfl : _ = stack' := Option.some.inj haction
    exact hstack.push _
  collect text stack stack' haction hstack := by
    obtain ⟨tree, hmem, htree⟩ := hstack
    rcases stack with _ | ⟨rhs, _ | ⟨lhs, stack⟩⟩
    · simp [opCollectList] at haction
    · simp [opCollectList] at haction
    · obtain rfl : _ = stack' := Option.some.inj haction
      rcases List.mem_cons.mp hmem with rfl | hmem
      · obtain ⟨arg, harg, hdouble⟩ := htree.toList
        exact ⟨_, List.mem_cons_self, .productionList (List.mem_append_right _ harg) hdouble⟩
      · rcases List.mem_cons.mp hmem with rfl | hmem
        · obtain ⟨arg, harg, hdouble⟩ := htree.toList
          exact ⟨_, List.mem_cons_self, .productionList (List.mem_append_left _ harg) hdouble⟩
        · exact ⟨tree, List.mem_cons_of_mem _ hmem, htree⟩
  binary code _ := opBaction_spoiled code
  unary code text stack stack' haction hstack := by
    obtain ⟨tree, hmem, htree⟩ := hstack
    rcases stack with _ | ⟨arg, stack⟩
    · simp [opUaction] at haction
    · obtain rfl : _ = stack' := Option.some.inj haction
      rcases List.mem_cons.mp hmem with rfl | hmem
      · exact ⟨_, List.mem_cons_self, .unary code htree⟩
      · exact ⟨tree, List.mem_cons_of_mem _ hmem, htree⟩

mutual

/-- No expression stands for a tree with a floating number. -/
theorem Rendering.not_hasDouble (s : Rendering) : ¬ HasDouble s.tree := by
  match s with
  | .leaf token _ =>
      intro h
      cases token <;> cases h
  | .paren _ inner _ => exact inner.not_hasDouble
  | .index array _ inner _ =>
      intro h
      cases h with
      | left _ _ h => exact array.not_hasDouble h
      | right _ _ h => exact inner.not_hasDouble h
  | .emptyCall callee _ _ =>
      intro h
      cases h with
      | left _ _ h => exact callee.not_hasDouble h
      | right _ _ h =>
          cases h with
          | productionList hmem _ => exact absurd hmem List.not_mem_nil
  | .call callee _ args _ =>
      intro h
      cases h with
      | left _ _ h => exact callee.not_hasDouble h
      | right _ _ h =>
          cases h with
          | productionList hmem harg => exact args.not_hasDouble _ hmem harg
  | .member object op _ name _ =>
      intro h
      cases h with
      | left _ _ h => exact object.not_hasDouble h
      | right _ _ h => cases h
  | .unary _ _ operand =>
      intro h
      cases h with
      | unary _ h => exact operand.not_hasDouble h
  | .binary left _ _ right =>
      intro h
      cases h with
      | left _ _ h => exact left.not_hasDouble h
      | right _ _ h => exact right.not_hasDouble h

theorem Arguments.not_hasDouble (args : Arguments) : ∀ tree ∈ args.trees, ¬ HasDouble tree := by
  match args with
  | .first arg =>
      intro tree htree
      obtain rfl := List.mem_singleton.mp htree
      exact arg.not_hasDouble
  | .more args _ arg =>
      intro tree htree
      rcases List.mem_append.mp htree with h | h
      · exact args.not_hasDouble tree h
      · obtain rfl := List.mem_singleton.mp h
        exact arg.not_hasDouble

end

/-! ## Steps of the automaton -/

section

/-- A letter is not a space. -/
theorem not_isSpace_of_isIdent2 {c : Char} (hc : isIdent2 c = true) : isSpace c = false := by
  by_contra hcontra
  rw [not_isIdent2_of_isSpace (by simpa using hcontra)] at hc
  exact Bool.noConfusion hc

theorem step_space {c : Char} (hc : isSpace c = true) (q : Mode) :
    q.step c = some (if q = .number then .after else q) := by
  simp [Mode.step, hc]

theorem step_digit {c : Char} (hc : isDigit c = true) (q : Mode) :
    q.step c = some (if q = .after then .after else .number) := by
  simp [Mode.step, hc, not_isSpace_of_isIdent2 (isIdent2_of_isDigit hc)]

theorem step_name {c : Char} (hc : isIdent2 c = true) (hdigit : isDigit c = false) (q : Mode) :
    q.step c = some .after := by
  simp [Mode.step, hc, hdigit, not_isSpace_of_isIdent2 hc]

/-- After an operand, a name goes on. -/
theorem step_after {c : Char} (hc : isIdent2 c = true) : Mode.after.step c = some .after := by
  cases hdigit : isDigit c with
  | true => rw [step_digit hdigit, if_pos rfl]
  | false => exact step_name hc hdigit _

theorem run_after {text : List Char} (htext : ∀ c ∈ text, isIdent2 c = true) :
    run Mode.step .after text = some .after := by
  induction text with
  | nil => rfl
  | cons c text ih =>
      have hrest := ih fun d hd => htext d (List.mem_cons_of_mem c hd)
      rw [run, List.foldlM_cons, step_after (htext c List.mem_cons_self)]
      exact hrest

theorem run_number {text : List Char} (htext : ∀ c ∈ text, isDigit c = true) :
    run Mode.step .number text = some .number := by
  induction text with
  | nil => rfl
  | cons c text ih =>
      have hrest := ih fun d hd => htext d (List.mem_cons_of_mem c hd)
      rw [run, List.foldlM_cons, step_digit (htext c List.mem_cons_self)]
      exact hrest

/-- Digits where an operand starts are a number. -/
theorem run_digits {q : Mode} (hq : q = .operand ∨ q = .signed) {text : List Char}
    (hne : text ≠ []) (htext : ∀ c ∈ text, isDigit c = true) :
    run Mode.step q text = some .number := by
  cases text with
  | nil => exact absurd rfl hne
  | cons c text =>
      have hq' : q ≠ .after := by rcases hq with rfl | rfl <;> decide
      rw [run, List.foldlM_cons, step_digit (htext c List.mem_cons_self), if_neg hq']
      exact run_number fun d hd => htext d (List.mem_cons_of_mem c hd)

/-- A name is read as one operand. -/
theorem run_name (name : Name) (q : Mode) : run Mode.step q name.1 = some .after := by
  obtain ⟨text, htext⟩ := name
  cases text with
  | nil => exact htext.elim
  | cons c text =>
      have hc := isIdent2_of_isIdent1 htext.1
      rw [run, List.foldlM_cons, step_name hc (isDigit_of_isIdent1 htext.1)]
      exact run_after (List.all_eq_true.mp htext.2)

/-- Spaces change nothing but the end of a number. -/
theorem run_spaces {q : Mode} (hq : q ≠ .number) {text : List Char}
    (htext : ∀ c ∈ text, isSpace c = true) : run Mode.step q text = some q := by
  induction text with
  | nil => rfl
  | cons c text ih =>
      have hrest := ih fun d hd => htext d (List.mem_cons_of_mem c hd)
      rw [run, List.foldlM_cons, step_space (htext c List.mem_cons_self), if_neg hq]
      exact hrest

end

/-! ## The lexical rules -/

section

/-- The parser takes the automaton from one kind of place to another. -/
abbrev Passes (before after : Mode → List Char → Prop) (parser : ExprParser) : Prop :=
  Scans Mode.step Spoiled before after parser

theorem passes_spaces {place : Mode → List Char → Prop}
    (hplace : ∀ q c rest, place q (c :: rest) → isSpace c = true →
      place (if q = .number then .after else q) rest) :
    Passes place place (star (char isSpace)) := by
  refine Scans.star (Scans.char fun q c rest hq hc => ?_) (Preserves.char _)
  exact ⟨_, step_space hc q, hplace q c rest hq hc⟩

theorem start_spaces : Passes Start Start (star (char isSpace)) :=
  passes_spaces fun q c rest hq _ => by rcases hq with rfl | rfl <;> simp [Start]

theorem operand_spaces : Passes Operand Operand (star (char isSpace)) :=
  passes_spaces fun q c rest hq _ => by rw [hq]; rfl

theorem ended_spaces : Passes Ended Ended (star (char isSpace)) :=
  passes_spaces fun q c rest hq _ => by
    rcases hq with rfl | ⟨rfl, -⟩ <;> exact .inl rfl

/-- The parser with its spaces. -/
theorem passes_pad {before after : Mode → List Char → Prop} {parser : ExprParser}
    (hbefore : Passes before before (star (char isSpace)))
    (hparser : Passes before after parser) (hkeeps : Preserves Spoiled parser)
    (hafter : Passes after after (star (char isSpace))) : Passes before after (pad parser) := by
  have hspaces : Preserves Spoiled (star (char isSpace)) := (Preserves.char _).star
  exact hbefore.seq (hparser.seq hafter hspaces) (hkeeps.seq hspaces)

theorem identifier_passes {before : Mode → List Char → Prop} :
    Passes before Ended identifier := by
  have hstar : Passes (fun q _ => q = .after) (fun q _ => q = .after) (star (char isIdent2)) := by
    refine Scans.star (Scans.char ?_) (Preserves.char _)
    rintro q c rest rfl hc
    exact ⟨.after, step_after hc, rfl⟩
  have hfirst : Passes before (fun q _ => q = .after) (char isIdent1) :=
    Scans.char fun q c rest _ hc =>
      ⟨.after, step_name (isIdent2_of_isIdent1 hc) (isDigit_of_isIdent1 hc) q, rfl⟩
  exact (hfirst.seq hstar (Preserves.char _).star).weaken (fun _ _ h => h) fun _ _ h => .inl h

theorem pushVariableRule_passes {before : Mode → List Char → Prop}
    (hbefore : Passes before before (star (char isSpace))) :
    Passes before Ended pushVariableRule :=
  passes_pad hbefore (identifier_passes.ifapply (Spoiled.of_push pushString_pushes))
    (identifier_preserves.ifapply (Spoiled.of_push pushString_pushes)) ended_spaces

/-- A name behind a mark. -/
theorem mark_passes {c : Char} (hc : Mode.operand.step c = some .after)
    (hc' : Mode.signed.step c = some .after) :
    Passes Start Ended (pad (ifapply (seq (ch c) identifier) pushString)) := by
  have hch : Passes Start (fun _ _ => True) (ch c) := by
    refine Scans.char fun q d rest hq hd => ?_
    obtain rfl : d = c := by simpa using hd
    rcases hq with rfl | rfl
    · exact ⟨.after, hc, trivial⟩
    · exact ⟨.after, hc', trivial⟩
  have hkeeps : Preserves Spoiled (seq (ch c) identifier) :=
    (Preserves.char _).seq identifier_preserves
  exact passes_pad start_spaces ((hch.seq identifier_passes identifier_preserves).ifapply
    (Spoiled.of_push pushString_pushes))
    (hkeeps.ifapply (Spoiled.of_push pushString_pushes)) ended_spaces

theorem boolean_passes : Passes Start Ended pushBooleanRule := by
  have htext (text : List Char) (htext : text = "true".toList ∨ text = "false".toList) :
      Passes Start Ended (string text) := by
    refine Scans.string fun q rest hq => ⟨.after, ?_, .inl rfl⟩
    rcases htext with rfl | rfl <;> rcases hq with rfl | rfl <;> decide
  have hboolean : Passes Start Ended boolean := (htext _ (.inl rfl)).sor (htext _ (.inr rfl))
  exact passes_pad start_spaces (hboolean.ifapply (Spoiled.of_push pushBool_pushes))
    (boolean_preserves.ifapply (Spoiled.of_push pushBool_pushes)) ended_spaces

/-- A floating number spoils the stack. -/
theorem floating_passes {before after : Mode → List Char → Prop} :
    Passes before after pushFloatingRule := by
  intro input stack rest stack' hmatch hclean
  obtain ⟨middle, hrule, -⟩ := pad_inv hmatch
  obtain ⟨stack₁, -, haction⟩ := ifapply_inv hrule
  obtain rfl : _ = stack' := Option.some.inj haction
  exact absurd ⟨_, List.mem_cons_self, .doubleConstant _⟩ hclean

theorem isIdent2_of_isXdigit {c : Char} (hc : isXdigit c = true) : isIdent2 c = true := by
  simp only [isXdigit, Bool.or_eq_true] at hc
  rcases hc with (hc | hc) | hc
  · exact isIdent2_of_isDigit hc
  · have hlower : range 'a' 'z' c = true := range_mono hc (by decide) (by decide)
    simp [isIdent2, isIdent1, isAlpha, hlower]
  · have hupper : range 'A' 'Z' c = true := range_mono hc (by decide) (by decide)
    simp [isIdent2, isIdent1, isAlpha, hupper]

theorem ch_inv {c : Char} {input rest : List Char} {stack stack' : ExprStack}
    (hmatch : ch c input stack = .matched rest stack') : input = c :: rest := by
  obtain ⟨d, hinput, hd, -⟩ := char_inv hmatch
  obtain rfl : d = c := by simpa using hd
  exact hinput

theorem star_char_inv {accepts : Char → Bool} {input rest : List Char}
    {stack stack' : ExprStack} (hmatch : star (char accepts) input stack = .matched rest stack') :
    ∃ text, input = text ++ rest ∧ ∀ c ∈ text, accepts c = true := by
  rw [star_char_eq] at hmatch
  obtain ⟨rfl, -⟩ : input.dropWhile accepts = rest ∧ stack = stack' := by simpa using hmatch
  exact ⟨input.takeWhile accepts, List.takeWhile_append_dropWhile.symm,
    List.all_eq_true.mp List.all_takeWhile⟩

theorem plus_char_inv {accepts : Char → Bool} {input rest : List Char}
    {stack stack' : ExprStack} (hmatch : plus (char accepts) input stack = .matched rest stack') :
    ∃ c text, input = c :: (text ++ rest) ∧ accepts c = true ∧ ∀ d ∈ text, accepts d = true := by
  obtain ⟨middle, stack₁, hfirst, hstar⟩ := seq_inv hmatch
  obtain ⟨c, rfl, hc, -⟩ := char_inv hfirst
  obtain ⟨text, rfl, htext⟩ := star_char_inv hstar
  exact ⟨c, text, rfl, hc, htext⟩

/-- What the rule for integers reads: a hexadecimal number, or digits. -/
theorem integer_inv {input rest : List Char} {stack stack' : ExprStack}
    (hmatch : integer input stack = .matched rest stack') :
    (∃ c text, input = '0' :: c :: (text ++ rest) ∧ (c = 'x' ∨ c = 'X') ∧
      ∀ d ∈ text, isIdent2 d = true) ∨
    ∃ digits, input = digits ++ rest ∧ digits ≠ [] ∧ ∀ d ∈ digits, isDigit d = true := by
  rcases sor_inv hmatch with hmatch | ⟨stack₁, -, hdecimal⟩
  · rcases sor_inv hmatch with hhex | ⟨stack₁, -, hoctal⟩
    · obtain ⟨middle, stack₁, hmark, hdigits⟩ := seq_inv (ifmust_inv hhex)
      obtain ⟨middle', stack₂, hzero, hx⟩ := seq_inv hmark
      obtain rfl := ch_inv hzero
      obtain ⟨c, rfl, hc, -⟩ := char_inv hx
      obtain ⟨d, text, rfl, hd, htext⟩ := plus_char_inv hdigits
      refine .inl ⟨c, d :: text, rfl, by simpa using hc, fun e he => ?_⟩
      rcases List.mem_cons.mp he with rfl | he
      · exact isIdent2_of_isXdigit hd
      · exact isIdent2_of_isXdigit (htext e he)
    · obtain ⟨middle, stack₂, hzero, hdigits⟩ := seq_inv (ifmust_inv hoctal)
      obtain rfl := ch_inv hzero
      obtain ⟨text, rfl, htext⟩ := star_char_inv hdigits
      refine .inr ⟨'0' :: text, rfl, List.cons_ne_nil _ _, fun e he => ?_⟩
      rcases List.mem_cons.mp he with rfl | he
      · rfl
      · exact range_mono (htext e he) (by decide) (by decide)
  · obtain ⟨middle, stack₂, hfirst, hdigits⟩ := seq_inv hdecimal
    obtain ⟨c, rfl, hc, -⟩ := char_inv hfirst
    obtain ⟨text, rfl, htext⟩ := star_char_inv hdigits
    refine .inr ⟨c :: text, rfl, List.cons_ne_nil _ _, fun e he => ?_⟩
    rcases List.mem_cons.mp he with rfl | he
    · exact range_mono hc (by decide) (by decide)
    · exact htext e he

/-- The rule for floating numbers takes digits with a point behind them. -/
theorem floating_of_point (text : List Char) {digits : List Char} (hne : digits ≠ [])
    (hdigits : ∀ d ∈ digits, isDigit d = true) (stack stack' : ExprStack) :
    floating (digits ++ '.' :: text) stack ≠ .failed stack' := by
  have hpoint : ∀ d ∈ ('.' :: text).head?, isDigit d = false := by
    simp
    decide
  have hplus (stack : ExprStack) := plus_char_matched hne hdigits hpoint stack
  have hdot (stack : ExprStack) : ch '.' ('.' :: text) stack = .matched text stack := by
    simp [ch, char]
  have hopt (input : List Char) (stack stack' : ExprStack) :
      opt exponent input stack ≠ .failed stack' := by
    simp only [opt]
    split <;> simp
  have hthird (stack stack' : ExprStack) :
      seq (seq (seq (plus (char isDigit)) (ch '.')) (star (char isDigit))) (opt exponent)
        (digits ++ '.' :: text) stack ≠ .failed stack' := by
    simp only [seq, hplus, hdot, star_char_eq]
    exact hopt _ _ _
  intro hfail
  -- whatever the first two alternatives do, the third one does not fail
  simp only [floating, sor] at hfail
  split at hfail
  · simp at hfail
  · exact hthird _ _ hfail
  · simp at hfail

/-- The rule for integers comes after the one for floating numbers. -/
theorem integer_passes : Passes
    (fun q input => Start q input ∧ ∃ stack stack', pushFloatingRule input stack = .failed stack')
    Ended pushIntegerRule := by
  rintro input stack rest stack' hmatch hclean q ⟨hq, stack₀, stack₁, hfloating⟩
  obtain ⟨middle, hrule, rfl⟩ := pad_inv hmatch
  obtain ⟨stack₂, hinteger, -⟩ := ifapply_inv hrule
  have hspaces : accepts Mode.step q input =
      accepts Mode.step q (input.dropWhile isSpace) := by
    have hrun := run_spaces (q := q) (by rcases hq with rfl | rfl <;> decide)
      (List.all_eq_true.mp (List.all_takeWhile (l := input) (p := isSpace)))
    have happend := accepts_append hrun (input.dropWhile isSpace)
    rwa [List.takeWhile_append_dropWhile] at happend
  have hended (q' : Mode) (hq' : Ended q' middle) : ∃ q'', Ended q'' (middle.dropWhile isSpace) ∧
      accepts Mode.step q' middle = accepts Mode.step q'' (middle.dropWhile isSpace) :=
    ended_spaces middle [] _ [] (star_char_eq isSpace middle []) (by simp [Spoiled]) q' hq'
  have hread : ∃ q', Ended q' middle ∧
      accepts Mode.step q (input.dropWhile isSpace) = accepts Mode.step q' middle := by
    rcases integer_inv hinteger with ⟨c, text, hinput, hc, htext⟩ | ⟨digits, hinput, hne, hdigits⟩
    · have hrun : run Mode.step q ('0' :: c :: text) = some .after := by
        have hfirst : q.step '0' = some .number := by rcases hq with rfl | rfl <;> rfl
        have hmark : Mode.number.step c = some .after := by rcases hc with rfl | rfl <;> rfl
        rw [run, List.foldlM_cons, hfirst]
        simp only [Option.bind_eq_bind, Option.bind_some, List.foldlM_cons, hmark]
        exact run_after htext
      have happend := accepts_append hrun middle
      rw [hinput]
      exact ⟨.after, .inl rfl, happend⟩
    · have hrun := run_digits hq hne hdigits
      rw [hinput, accepts_append hrun middle]
      refine ⟨.number, .inr ⟨rfl, fun hpoint => ?_⟩, rfl⟩
      obtain ⟨text, rfl⟩ : ∃ text, middle = '.' :: text := by
        cases middle with
        | nil => simp at hpoint
        | cons d text =>
            obtain rfl : d = '.' := by simpa using hpoint
            exact ⟨text, rfl⟩
      have hfail := pad_failed_inv hfloating
      rw [hinput] at hfail
      have hnot := floating_of_point text hne hdigits stack₀
      cases hresult : floating (digits ++ '.' :: text) stack₀ with
      | failed stack₃ => exact hnot stack₃ hresult
      | error => simp [ifapply, hresult] at hfail
      | matched rest₃ stack₃ => simp [ifapply, hresult, pushDouble] at hfail
  obtain ⟨q', hq', heq⟩ := hread
  obtain ⟨q'', hq'', heq'⟩ := hended q' hq'
  exact ⟨q'', hq'', hspaces.trans (heq.trans heq')⟩

theorem pushPrimitive_passes : Passes Start Ended pushPrimitive := by
  have hnames : Passes Start Ended
      (choice [pushBooleanRule, pushVariableRule, pushBuiltinRule, pushSymbolRule]) := by
    refine Scans.choice fun parser hparser => ?_
    simp only [List.mem_cons, List.not_mem_nil, or_false] at hparser
    rcases hparser with rfl | rfl | rfl | rfl
    · exact boolean_passes
    · exact pushVariableRule_passes start_spaces
    · exact mark_passes rfl rfl
    · exact mark_passes rfl rfl
  exact floating_passes.sor_of_failed
    (integer_passes.sor (hnames.weaken (fun _ _ h => h.1) fun _ _ h => h))

end

/-! ## The tokens between operands -/

section

/-- A bracket, a comma or a point that an operand follows. -/
theorem chpad_opens {c : Char} (hstep : Mode.after.step c = some .operand)
    (hnumber : c = '.' ∨ Mode.number.step c = some .operand) : Passes Ended Operand (chpad c) := by
  refine passes_pad ended_spaces (Scans.char fun q d rest hq hd => ?_) (Preserves.char _)
    operand_spaces
  obtain rfl : d = c := by simpa using hd
  rcases hq with rfl | ⟨rfl, hpoint⟩
  · exact ⟨.operand, hstep, rfl⟩
  · rcases hnumber with rfl | hnumber
    · exact absurd rfl hpoint
    · exact ⟨.operand, hnumber, rfl⟩

theorem chpad_closes {c : Char} (hc : c = ')' ∨ c = ']') : Passes Ended Ended (chpad c) := by
  refine passes_pad ended_spaces (Scans.char fun q d rest hq hd => ?_) (Preserves.char _)
    ended_spaces
  obtain rfl : d = c := by simpa using hd
  refine ⟨.after, ?_, .inl rfl⟩
  rcases hc with rfl | rfl <;> rcases hq with rfl | ⟨rfl, -⟩ <;> rfl

theorem open_passes : Passes Start Operand readOpen := by
  refine passes_pad start_spaces (Scans.char fun q d rest hq hd => ?_) (Preserves.char _)
    operand_spaces
  obtain rfl : d = '(' := by simpa using hd
  refine ⟨.operand, ?_, rfl⟩
  rcases hq with rfl | rfl <;> rfl

/-- A symbol between two operands. -/
theorem strpad_passes {text : List Char} (hafter : run Mode.step .after text = some .operand)
    (hnumber : run Mode.step .number text = some .operand) : Passes Ended Operand (strpad text) := by
  refine passes_pad ended_spaces (Scans.string fun q rest hq => ⟨.operand, ?_, rfl⟩)
    (Preserves.string _) operand_spaces
  rcases hq with rfl | ⟨rfl, -⟩
  · exact hafter
  · exact hnumber

theorem operator_passes (op : BinaryOperator) : Passes Ended Operand (strpad op.text) :=
  strpad_passes (by cases op <;> decide) (by cases op <;> decide)

/-- A unary operator is read only where no unary operator has been. -/
theorem sign_passes (code : UnOpcode) : Passes Operand Start (strpad [code.char]) := by
  have hstep : Mode.operand.step code.char = some .signed := by cases code <;> rfl
  refine passes_pad operand_spaces (Scans.string fun q rest hq => ⟨.signed, ?_, .inr rfl⟩)
    (Preserves.string _) start_spaces
  rw [hq, run, List.foldlM_cons, hstep]
  rfl

theorem mode_places : Places Mode.step Spoiled Start Operand Ended where
  keeps := spoiled_invariant
  keepsName := pushVariableRule_spoiled
  starts _ _ h := .inl h
  primitive := pushPrimitive_passes
  name := pushVariableRule_passes operand_spaces
  paren := open_passes
  opens c hc := by
    rcases hc with rfl | rfl | rfl | rfl
    · exact chpad_opens rfl (.inr rfl)
    · exact chpad_opens rfl (.inr rfl)
    · exact chpad_opens rfl (.inr rfl)
    · exact chpad_opens rfl (.inl rfl)
  closes _ := chpad_closes
  arrow := strpad_passes (by decide) (by decide)
  operator := operator_passes
  sign := sign_passes

end

/-- The automaton reads what is parsed to a tree without floating numbers. -/
theorem accepts_of_parseExpression {input : List Char} {tree : Production}
    (hparse : parseExpression input = some tree) (htree : ¬ HasDouble tree) :
    accepts Mode.step .operand input = true := by
  obtain ⟨middle, hexpr, hempty⟩ := parseExpression_inv hparse
  have hclean : ¬ Spoiled [tree] := by
    rintro ⟨t, ht, hdouble⟩
    obtain rfl := List.mem_singleton.mp ht
    exact htree hdouble
  obtain ⟨q, hq, heq⟩ := mode_places.expr _ input [] middle [tree] hexpr hclean .operand rfl
  obtain ⟨q', -, heq'⟩ := ended_spaces middle [] _ [] (star_char_eq isSpace middle [])
    (by simp [Spoiled]) q hq
  rw [heq, heq', hempty]
  rfl

/-! ## The automaton on the text of an expression -/

section

variable {q : Mode}

/-- An operand has been read; `number` stands only behind its digits. -/
def Finished (q : Mode) : Prop :=
  q = .after ∨ q = .number

theorem accepts_spaces (hq : q ≠ .number) (spaces : Spaces) (rest : List Char) :
    accepts Mode.step q (spaces.1 ++ rest) = accepts Mode.step q rest :=
  accepts_append (run_spaces hq spaces.2) rest

/-- The automaton goes through a leaf, and is behind digits where it is an integer without spaces. -/
theorem accepts_leaf (hq : q = .operand ∨ q = .signed) (token : Leaf) (spaces : Spaces)
    (rest : List Char) :
    ∃ q', Finished q' ∧ ((Rendering.leaf token spaces).IsBareInteger → q' = .number) ∧
      accepts Mode.step q (token.text ++ (spaces.1 ++ rest)) = accepts Mode.step q' rest := by
  have hafter : run Mode.step q token.text = some .after →
      accepts Mode.step q (token.text ++ (spaces.1 ++ rest)) = accepts Mode.step .after rest :=
    fun hrun => (accepts_append hrun _).trans (accepts_spaces (by decide) spaces rest)
  cases token with
  | integer value hvalue =>
      have hrun := run_digits hq Nat.toDigits_ne_nil (isDigit_of_mem_toDigits value)
      have hread := accepts_append hrun (spaces.1 ++ rest)
      rcases hspaces : spaces.1 with _ | ⟨c, text⟩
      · rw [hspaces, List.nil_append] at hread
        exact ⟨.number, .inr rfl, fun _ => rfl, hread⟩
      · have hc : isSpace c = true := spaces.2 c (by simp [hspaces])
        have htext : ∀ d ∈ text, isSpace d = true := fun d hd => spaces.2 d (by simp [hspaces, hd])
        have hnumber : run Mode.step .number (c :: text) = some .after := by
          rw [run, List.foldlM_cons, step_space hc]
          exact run_spaces (by decide) htext
        refine ⟨.after, .inl rfl, fun hbare => ?_, ?_⟩
        · have hempty : spaces.1 = [] := hbare
          rw [hspaces] at hempty
          exact absurd hempty (List.cons_ne_nil c text)
        · rw [hspaces] at hread
          exact hread.trans (accepts_append hnumber rest)
  | identifier name hname =>
      exact ⟨.after, .inl rfl, fun h => h.elim, hafter (run_name name q)⟩
  | builtin name =>
      refine ⟨.after, .inl rfl, fun h => h.elim, hafter ?_⟩
      have hmark : q.step '\\' = some .after := by rcases hq with rfl | rfl <;> rfl
      rw [Leaf.text, run, List.foldlM_cons, hmark]
      exact run_name name .after
  | boolean value =>
      refine ⟨.after, .inl rfl, fun h => h.elim, hafter ?_⟩
      cases value <;> rcases hq with rfl | rfl <;> decide

/-- An opening bracket or a comma leads to an operand. -/
theorem accepts_opens (hq : Finished q) {c : Char} (hc : c = '(' ∨ c = '[' ∨ c = ',')
    (spaces : Spaces) (rest : List Char) :
    accepts Mode.step q (c :: (spaces.1 ++ rest)) = accepts Mode.step .operand rest := by
  have hstep : q.step c = some .operand := by
    rcases hc with rfl | rfl | rfl <;> rcases hq with rfl | rfl <;> rfl
  rw [accepts, hstep]
  exact accepts_spaces (by decide) spaces rest

theorem accepts_closes (hq : Finished q) {c : Char} (hc : c = ')' ∨ c = ']') (spaces : Spaces)
    (rest : List Char) :
    accepts Mode.step q (c :: (spaces.1 ++ rest)) = accepts Mode.step .after rest := by
  have hstep : q.step c = some .after := by
    rcases hc with rfl | rfl <;> rcases hq with rfl | rfl <;> rfl
  rw [accepts, hstep]
  exact accepts_spaces (by decide) spaces rest

/-- A symbol between two operands, with the spaces behind it. -/
theorem accepts_symbol (hq : Finished q) {text : List Char}
    (hafter : run Mode.step .after text = some .operand)
    (hnumber : run Mode.step .number text = some .operand) (spaces : Spaces) (rest : List Char) :
    accepts Mode.step q (text ++ (spaces.1 ++ rest)) = accepts Mode.step .operand rest := by
  have hrun : run Mode.step q text = some .operand := by
    rcases hq with rfl | rfl
    · exact hafter
    · exact hnumber
  exact (accepts_append hrun _).trans (accepts_spaces (by decide) spaces rest)

theorem accepts_name (name : Name) (spaces : Spaces) (rest : List Char) :
    accepts Mode.step q (name.1 ++ (spaces.1 ++ rest)) = accepts Mode.step .after rest :=
  (accepts_append (run_name name q) _).trans (accepts_spaces (by decide) spaces rest)

end

mutual

/-- **The automaton refuses what the rules cannot spell.** -/
theorem Rendering.spelled_of_accepts (s : Rendering) (n : Nat) (hfits : s.Fits n) (q : Mode)
    (hq : q = .operand ∨ q = .signed ∧ s.Fits 0) (rest : List Char)
    (haccepts : accepts Mode.step q (s.text ++ rest) = true) :
    s.All Rendering.Spelled ∧ ∃ q', Finished q' ∧ (s.IsBareInteger → q' = .number) ∧
      accepts Mode.step q' rest = true := by
  have hstart : q = .operand ∨ q = .signed := hq.imp_right And.left
  match s with
  | .leaf token spaces =>
      obtain ⟨q', hq', hbare, heq⟩ := accepts_leaf hstart token spaces rest
      rw [Rendering.text, List.append_assoc, heq] at haccepts
      exact ⟨trivial, q', hq', hbare, haccepts⟩
  | .paren opened inner closed =>
      have hopen : accepts Mode.step q ('(' :: (opened.1 ++ (inner.text ++ ')' ::
          (closed.1 ++ rest)))) = accepts Mode.step .operand (inner.text ++ ')' ::
          (closed.1 ++ rest)) := by
        have hstep : q.step '(' = some .operand := by rcases hstart with rfl | rfl <;> rfl
        rw [accepts, hstep]
        exact accepts_spaces (by decide) opened _
      simp only [Rendering.text, List.cons_append, List.append_assoc] at haccepts
      rw [hopen] at haccepts
      obtain ⟨hinner, q₁, hq₁, -, h⟩ := inner.spelled_of_accepts 12 hfits .operand (.inl rfl) _
        haccepts
      rw [accepts_closes hq₁ (.inl rfl)] at h
      exact ⟨⟨trivial, hinner⟩, .after, .inl rfl, fun h => h.elim, h⟩
  | .index array opened inner closed =>
      simp only [Rendering.text, List.cons_append, List.append_assoc] at haccepts
      obtain ⟨harray, q₁, hq₁, -, h₁⟩ := array.spelled_of_accepts 0 hfits.1 q
        (hq.imp_right fun h => ⟨h.1, hfits.1⟩) _ haccepts
      rw [accepts_opens hq₁ (.inr (.inl rfl))] at h₁
      obtain ⟨hinner, q₂, hq₂, -, h₂⟩ := inner.spelled_of_accepts 12 hfits.2 .operand (.inl rfl) _ h₁
      rw [accepts_closes hq₂ (.inr rfl)] at h₂
      exact ⟨⟨trivial, harray, hinner⟩, .after, .inl rfl, fun h => h.elim, h₂⟩
  | .emptyCall callee opened closed =>
      simp only [Rendering.text, List.cons_append, List.append_assoc] at haccepts
      obtain ⟨-, q₁, hq₁, -, h₁⟩ := callee.spelled_of_accepts 0 hfits q
        (hq.imp_right fun h => ⟨h.1, hfits⟩) _ haccepts
      rw [accepts_opens hq₁ (.inl rfl)] at h₁
      -- a closing bracket where an operand is due
      have hstep : Mode.operand.step ')' = none := rfl
      simp [accepts, hstep] at h₁
  | .call callee opened args closed =>
      simp only [Rendering.text, List.cons_append, List.append_assoc] at haccepts
      obtain ⟨hcallee, q₁, hq₁, -, h₁⟩ := callee.spelled_of_accepts 0 hfits.1 q
        (hq.imp_right fun h => ⟨h.1, hfits.1⟩) _ haccepts
      rw [accepts_opens hq₁ (.inl rfl)] at h₁
      obtain ⟨hargs, q₂, hq₂, h₂⟩ := args.spelled_of_accepts hfits.2 _ h₁
      rw [accepts_closes hq₂ (.inl rfl)] at h₂
      exact ⟨⟨trivial, hcallee, hargs⟩, .after, .inl rfl, fun h => h.elim, h₂⟩
  | .member object op spaces name closed =>
      simp only [Rendering.text, List.append_assoc] at haccepts
      obtain ⟨hobject, q₁, hq₁, hbare, h₁⟩ := object.spelled_of_accepts 0 hfits q
        (hq.imp_right fun h => ⟨h.1, hfits⟩) _ haccepts
      cases op with
      | dot =>
          rcases hq₁ with rfl | rfl
          · rw [accepts_append (show run Mode.step .after MemberOperator.dot.text = some .operand
              from rfl), accepts_spaces (by decide), accepts_name] at h₁
            refine ⟨⟨?_, hobject⟩, .after, .inl rfl, fun h => h.elim, h₁⟩
            intro hinteger
            exact absurd (hbare hinteger) (by decide)
          · -- a point behind the digits of a number
            have hstep : Mode.number.step '.' = none := rfl
            simp [accepts, MemberOperator.text, hstep] at h₁
      | arrow =>
          rw [accepts_symbol hq₁ (by decide) (by decide), accepts_name] at h₁
          exact ⟨⟨trivial, hobject⟩, .after, .inl rfl, fun h => h.elim, h₁⟩
  | .unary op spaces operand =>
      rcases hq with rfl | ⟨-, hzero⟩
      · have hsign : Mode.operand.step op.char = some .signed := by cases op <;> rfl
        simp only [Rendering.text, List.cons_append, List.append_assoc, accepts, hsign] at haccepts
        rw [accepts_spaces (by decide)] at haccepts
        by_cases hunary : operand.IsUnary
        · -- a sign behind a sign
          cases operand with
          | unary op' spaces' operand' =>
              have hsign' : Mode.signed.step op'.char = none := by cases op' <;> rfl
              simp [Rendering.text, accepts, hsign'] at haccepts
          | _ => exact hunary.elim
        · have hpostfix := hfits.2.postfix_of_not_unary hunary
          obtain ⟨hoperand, q₁, hq₁, -, h₁⟩ := operand.spelled_of_accepts 0 hpostfix .signed
            (.inr ⟨rfl, hpostfix⟩) rest haccepts
          exact ⟨⟨hunary, hoperand⟩, q₁, hq₁, fun h => h.elim, h₁⟩
      · exact absurd hzero.1 (by decide)
  | .binary left op spaces right =>
      rcases hq with rfl | ⟨-, hzero⟩
      · simp only [Rendering.text, List.append_assoc] at haccepts
        obtain ⟨hleft, q₁, hq₁, -, h₁⟩ := left.spelled_of_accepts _ hfits.2.1 .operand (.inl rfl) _
          haccepts
        rw [accepts_symbol hq₁ (by cases op <;> decide) (by cases op <;> decide)] at h₁
        obtain ⟨hright, q₂, hq₂, -, h₂⟩ := right.spelled_of_accepts _ hfits.2.2 .operand (.inl rfl) _
          h₁
        exact ⟨⟨trivial, hleft, hright⟩, q₂, hq₂, fun h => h.elim, h₂⟩
      · exact absurd hzero.1 (Nat.not_succ_le_zero _)

theorem Arguments.spelled_of_accepts (args : Arguments) (hfit : args.Fit) (rest : List Char)
    (haccepts : accepts Mode.step .operand (args.text ++ rest) = true) :
    args.All Rendering.Spelled ∧ ∃ q', Finished q' ∧ accepts Mode.step q' rest = true := by
  match args with
  | .first arg =>
      obtain ⟨harg, q', hq', -, h⟩ := arg.spelled_of_accepts 12 hfit .operand (.inl rfl) rest
        haccepts
      exact ⟨harg, q', hq', h⟩
  | .more args spaces arg =>
      simp only [Arguments.text, List.cons_append, List.append_assoc] at haccepts
      obtain ⟨hargs, q₁, hq₁, h₁⟩ := args.spelled_of_accepts hfit.1 _ haccepts
      rw [accepts_opens hq₁ (.inr (.inr rfl))] at h₁
      obtain ⟨harg, q₂, hq₂, -, h₂⟩ := arg.spelled_of_accepts 12 hfit.2 .operand (.inl rfl) rest h₁
      exact ⟨⟨hargs, harg⟩, q₂, hq₂, h₂⟩

end

end Borealis.Anno
