import Borealis.Anno.ReadBack
import Borealis.Anno.Lexemes

/-!
# Printing and parsing again

A tree that is printed is parsed to an equal tree exactly where what is printed is spelled
(`Expression.Spelled`) and not read as something else (`Expression.Kept`).
-/

namespace Borealis.Anno

open Peg

variable {doubles : Doubles}

/-! ## Equal to what it is read as -/

theorem sameTree_binary {code code' : BinOpcode} {op0 op0' op1 op1' : Production} :
    SameTree doubles (.binary code op0 op1) (.binary code' op0' op1') ↔
      code = code' ∧ SameTree doubles op0 op0' ∧ SameTree doubles op1 op1' := by
  constructor
  · intro h
    cases h with
    | binary _ hop0 hop1 => exact ⟨rfl, hop0, hop1⟩
  · rintro ⟨rfl, hop0, hop1⟩
    exact .binary code hop0 hop1

theorem sameTree_list {data data' : List Production} :
    SameTree doubles (.productionList data) (.productionList data') ↔
      List.Forall₂ (SameTree doubles) data data' := by
  constructor
  · intro h
    cases h with
    | productionList hdata => exact hdata
  · exact .productionList

theorem sameTree_doubleConstant {text text' : List Char} {value : doubles.Value}
    (hread : doubles.read text' = some value) :
    SameTree doubles (.doubleConstant text) (.doubleConstant text') ↔
      doubles.read text = some value := by
  constructor
  · intro h
    cases h with
    | doubleConstant hread₁ hread₂ => rw [hread₁, ← hread₂, hread]
  · intro h
    exact .doubleConstant h hread

/-- A suffix behind a unary operator is lost. -/
theorem sameTree_suffixed (e : Expression doubles) (code : BinOpcode)
    (op0 op1 op1' : Production) :
    SameTree doubles (e.reparsed.suffixed fun tree => .binary code tree op1)
        (.binary code op0 op1') ↔
      ¬ e.IsSigned ∧ SameTree doubles e.reparsed op0 ∧ SameTree doubles op1 op1' := by
  rw [e.isSigned_iff]
  cases e.reparsed with
  | unary code' op =>
      constructor
      · intro h
        cases h
      · rintro ⟨hsigned, -, -⟩
        exact absurd ⟨code', op, rfl⟩ hsigned
  | _ =>
      simp only [Production.suffixed, sameTree_binary, true_and]
      exact ⟨fun h => ⟨fun ⟨_, _, heq⟩ => Production.noConfusion heq, h⟩, And.right⟩

theorem forall₂_append_singleton {α β : Type} {R : α → β → Prop} {xs : List α} {ys : List β}
    {x : α} {y : β} :
    List.Forall₂ R (xs ++ [x]) (ys ++ [y]) ↔ List.Forall₂ R xs ys ∧ R x y := by
  rw [← List.forall₂_reverse_iff]
  simp [and_comm]

mutual

/-- **What is read is equal to what was printed exactly where everything is kept.** -/
theorem Expression.sameTree_iff (e : Expression doubles) :
    SameTree doubles e.reparsed e.tree ↔ e.Kept := by
  match e with
  | .doubleConstant text value hread =>
      simp only [Expression.reparsed, Expression.tree, Expression.Kept]
      cases hwritten : doubles.write value with
      | whole n hn =>
          refine ⟨fun h => ?_, fun h => absurd trivial h.1⟩
          cases h
      | fraction digits decimals =>
          rw [sameTree_doubleConstant hread]
          exact ⟨fun h => ⟨id, h⟩, And.right⟩
      | exponent digits decimals sign power =>
          rw [sameTree_doubleConstant hread]
          exact ⟨fun h => ⟨id, h⟩, And.right⟩
  | .intConstant value hvalue =>
      simp only [Expression.reparsed, Expression.tree, Expression.Kept]
      split
      · refine ⟨fun h => ?_, fun h => by omega⟩
        cases h
      · exact ⟨fun _ => by omega, fun _ => .intConstant value⟩
  | .boolConstant value => exact ⟨fun _ => trivial, fun _ => .boolConstant value⟩
  | .builtin vname => exact ⟨fun _ => trivial, fun _ => .builtin vname.1⟩
  | .namedConstant vname => exact ⟨fun _ => trivial, fun _ => .namedConstant vname.1⟩
  | .variable vname _ => exact ⟨fun _ => trivial, fun _ => .variable vname.1⟩
  | .index op0 op1 =>
      have h := sameTree_suffixed op0 .index op0.tree op1.reparsed op1.tree
      rw [op0.sameTree_iff, op1.sameTree_iff] at h
      exact h
  | .call op0 args =>
      have h := sameTree_suffixed op0 .call op0.tree (.productionList args.reparsed)
        (.productionList args.trees)
      rw [op0.sameTree_iff, sameTree_list, args.sameTrees_iff] at h
      exact h
  | .member op0 op vname =>
      have h := sameTree_suffixed op0 op.code op0.tree (.variable vname.1) (.variable vname.1)
      rw [op0.sameTree_iff] at h
      exact h.trans ⟨fun h => ⟨h.1, h.2.1⟩, fun h => ⟨h.1, h.2, .variable vname.1⟩⟩
  | .unary code op0 =>
      refine ⟨fun h => ?_, fun h => .unary code (op0.sameTree_iff.mpr h)⟩
      cases h with
      | unary _ hop => exact op0.sameTree_iff.mp hop
  | .binary op op0 op1 =>
      have hcode : op.action = op.code ↔ op ≠ .rightShift := by
        cases op <;> simp [BinaryOperator.action, BinaryOperator.code]
      rw [Expression.reparsed, Expression.tree, sameTree_binary, hcode, op0.sameTree_iff,
        op1.sameTree_iff]
      rfl

theorem Actuals.sameTrees_iff (args : Actuals doubles) :
    List.Forall₂ (SameTree doubles) args.reparsed args.trees ↔ args.Kept := by
  match args with
  | .first arg =>
      rw [Actuals.reparsed, Actuals.trees, List.forall₂_cons, arg.sameTree_iff]
      exact ⟨And.left, fun h => ⟨h, .nil⟩⟩
  | .more args arg =>
      rw [Actuals.reparsed, Actuals.trees, forall₂_append_singleton, args.sameTrees_iff,
        arg.sameTree_iff]
      rfl

end

/-! ## What cannot be read -/

/-- What stands behind a printed expression: nothing, a space, a bracket, a comma, or the symbol of
a member. -/
def Behind (rest : List Char) : Prop :=
  rest = [] ∨ ∃ c more, rest = c :: more ∧
    (c ∈ [' ', ')', ']', '[', '(', ',', '.'] ∨ c = '-' ∧ more.head? = some '>')

theorem Behind.cons {c : Char} (hc : c ∈ [' ', ')', ']', '[', '(', ',', '.']) (more : List Char) :
    Behind (c :: more) :=
  .inr ⟨c, more, rfl, .inl hc⟩

/-- An operand has been read, and no point is the last of it. -/
def Completed (q : Lexeme) : Prop :=
  q = .ended ∨ q = .fraction ∨ q = .number

theorem run_cons_inv {q last : Lexeme} {c : Char} {text : List Char}
    (hrun : run Lexeme.step q (c :: text) = some last) :
    ∃ q', q.step c = some q' ∧ run Lexeme.step q' text = some last := by
  cases hstep : q.step c with
  | none => simp [run, hstep] at hrun
  | some q' => exact ⟨q', rfl, by simpa [run, hstep] using hrun⟩

theorem not_run_cons {q : Lexeme} {c : Char} (hnone : q.step c = none) (text : List Char)
    (last : Lexeme) : run Lexeme.step q (c :: text) ≠ some last := by
  intro hrun
  obtain ⟨q', hstep, -⟩ := run_cons_inv hrun
  simp [hnone] at hstep

/-- A letter of an exponent with nothing of a number behind it. -/
theorem not_run_exponent {rest : List Char} (hrest : Behind rest) {last : Lexeme}
    (hfinal : last.final = true) : run Lexeme.step .exponent rest ≠ some last := by
  intro hrun
  rcases hrest with rfl | ⟨c, more, rfl, hc | ⟨rfl, hmore⟩⟩
  · obtain rfl : Lexeme.exponent = last := by simpa [run] using hrun
    exact Bool.noConfusion hfinal
  · have hnone : Lexeme.exponent.step c = none := by
      simp only [List.mem_cons, List.not_mem_nil, or_false] at hc
      rcases hc with rfl | rfl | rfl | rfl | rfl | rfl | rfl <;> rfl
    exact not_run_cons hnone more last hrun
  · cases more with
    | nil => simp at hmore
    | cons d more =>
        obtain rfl : d = '>' := by simpa using hmore
        obtain ⟨q', hstep, hrun'⟩ := run_cons_inv hrun
        obtain rfl : Lexeme.power = q' := Option.some.inj hstep
        exact not_run_cons rfl more last hrun'

/-- A name right behind digits and a point. -/
theorem not_run_point (vname : Name) {rest : List Char} (hrest : Behind rest) {last : Lexeme}
    (hfinal : last.final = true) : run Lexeme.step .point (vname.1 ++ rest) ≠ some last := by
  intro hrun
  obtain ⟨text, htext⟩ := vname
  cases text with
  | nil => exact htext.elim
  | cons c text =>
      obtain ⟨q', hstep, hrun'⟩ := run_cons_inv hrun
      rw [Lexeme.step_name (isIdent2_of_isIdent1 htext.1) (isDigit_of_isIdent1 htext.1)] at hstep
      have hexponent : Lexeme.exponent = q' := by
        simp only [Lexeme.onName] at hstep
        split at hstep
        · exact Option.some.inj hstep
        · simp at hstep
      subst hexponent
      cases text with
      | nil => exact not_run_exponent hrest hfinal hrun'
      | cons d text =>
          have hd : isIdent2 d = true := List.all_eq_true.mp htext.2 d List.mem_cons_self
          have hnone : Lexeme.exponent.step d = none := by
            cases hdigit : isDigit d with
            | true => rw [Lexeme.step_digit hdigit]; rfl
            | false => rw [Lexeme.step_name hd hdigit]; rfl
          exact not_run_cons hnone _ last hrun'

theorem run_vname {q : Lexeme} (hq : q = .operand ∨ q = .signed ∨ q = .ended) (vname : Name) :
    run Lexeme.step q vname.1 = some .ended := by
  obtain ⟨text, htext⟩ := vname
  cases text with
  | nil => exact htext.elim
  | cons c text => exact Lexeme.run_name hq htext.1 (List.all_eq_true.mp htext.2)

/-- A number as it is written. -/
theorem Written.run_text (written : Written) {q : Lexeme} (hq : q = .operand ∨ q = .signed) :
    ∃ q', Completed q' ∧ (written.IsWhole → q' = .number) ∧
      run Lexeme.step q written.text = some q' := by
  have hdigit : q.onDigit = some .number := by rcases hq with rfl | rfl <;> rfl
  have hdigits (digits : Digits) : run Lexeme.step q digits.1 = some .number :=
    Lexeme.run_digits_to hdigit rfl digits.2.1 digits.2.2
  have hpoint (decimals : Digits) :
      run Lexeme.step .number ('.' :: decimals.1) = some .fraction :=
    (Lexeme.run_cons (show Lexeme.number.step '.' = some .point from rfl)).trans
      (Lexeme.run_digits_to rfl rfl decimals.2.1 decimals.2.2)
  have hpower {q' : Lexeme} (hq' : q' = .number ∨ q' = .fraction) (sign : Bool) (power : Digits) :
      run Lexeme.step q' (powerText sign power) = some .ended :=
    Lexeme.run_exponent (hq'.imp_right .inr) (.inl rfl) (by cases sign <;> simp)
      power.2.1 power.2.2
  match written with
  | .whole value _ =>
      exact ⟨.number, .inr (.inr rfl), fun _ => rfl,
        Lexeme.run_digits_to hdigit rfl Nat.toDigits_ne_nil (isDigit_of_mem_toDigits value)⟩
  | .fraction digits decimals =>
      exact ⟨.fraction, .inr (.inl rfl), False.elim,
        (Lexeme.run_append (hdigits digits) _).trans (hpoint decimals)⟩
  | .exponent digits none sign power =>
      exact ⟨.ended, .inl rfl, False.elim,
        (Lexeme.run_append (hdigits digits) _).trans (hpower (.inl rfl) sign power)⟩
  | .exponent digits (some decimals) sign power =>
      refine ⟨.ended, .inl rfl, False.elim, (Lexeme.run_append (hdigits digits) _).trans ?_⟩
      exact (Lexeme.run_append (hpoint decimals) _).trans (hpower (.inr rfl) sign power)

/-- Where the printer puts a unary operator in front, the text starts with a sign. -/
theorem Expression.isSigned_head (e : Expression doubles) (hsigned : e.IsSigned) :
    ∃ c more, e.tree.printed doubles = c :: more ∧ (isSign c = true ∨ c = '?') := by
  match e with
  | .doubleConstant _ _ _ => exact hsigned.elim
  | .intConstant value _ =>
      have hneg : value < 0 := hsigned
      refine ⟨'-', Nat.toDigits 10 value.natAbs, ?_, .inl rfl⟩
      rw [Expression.tree, Production.printed, integerText, if_pos hneg]
  | .boolConstant _ => exact hsigned.elim
  | .builtin _ => exact hsigned.elim
  | .namedConstant _ => exact hsigned.elim
  | .variable _ _ => exact hsigned.elim
  | .index op0 _ =>
      obtain ⟨c, more, htext, hc⟩ := op0.isSigned_head hsigned
      exact ⟨c, _, by rw [Expression.tree, Production.printed, htext]; rfl, hc⟩
  | .call op0 _ =>
      obtain ⟨c, more, htext, hc⟩ := op0.isSigned_head hsigned
      exact ⟨c, _, by rw [Expression.tree, Production.printed, htext]; rfl, hc⟩
  | .member op0 op vname =>
      obtain ⟨c, more, htext, hc⟩ := op0.isSigned_head hsigned
      exact ⟨c, _, by rw [Expression.tree, printed_member, htext]; rfl, hc⟩
  | .unary code op0 =>
      cases code with
      | load => exact ⟨'?', _, rfl, .inr rfl⟩
      | neg => exact ⟨'-', _, rfl, .inl rfl⟩
      | not => exact ⟨'!', _, rfl, .inl rfl⟩
      | bnot => exact ⟨'~', _, rfl, .inl rfl⟩
  | .binary _ _ _ => exact hsigned.elim

/-- No sign is read behind a sign. -/
theorem not_run_signed {e : Expression doubles} (hsigned : e.IsSigned) (rest : List Char)
    (last : Lexeme) : run Lexeme.step .signed (e.tree.printed doubles ++ rest) ≠ some last := by
  intro hrun
  obtain ⟨c, more, htext, hc⟩ := e.isSigned_head hsigned
  rw [htext] at hrun
  have hnone : Lexeme.signed.step c = none := by
    rcases hc with hc | rfl
    · have hmem : c = '*' ∨ c = '-' ∨ c = '!' ∨ c = '~' := by simpa [isSign, or_assoc] using hc
      rcases hmem with rfl | rfl | rfl | rfl <;> rfl
    · rfl
  exact not_run_cons hnone _ last hrun

section

variable {q last : Lexeme} {text rest : List Char}

/-- A character that leads from every end of an operand to one state. -/
theorem run_completed {q' : Lexeme} (hq : Completed q) {c : Char}
    (hended : Lexeme.ended.step c = some q') (hfraction : Lexeme.fraction.step c = some q')
    (hnumber : Lexeme.number.step c = some q') (rest : List Char) :
    run Lexeme.step q (c :: rest) = run Lexeme.step q' rest := by
  rcases hq with rfl | rfl | rfl
  · exact Lexeme.run_cons hended
  · exact Lexeme.run_cons hfraction
  · exact Lexeme.run_cons hnumber

theorem run_opening (hq : q = .operand ∨ q = .signed) (rest : List Char) :
    run Lexeme.step q ('(' :: rest) = run Lexeme.step .operand rest := by
  have hstep : q.step '(' = some .operand := by rcases hq with rfl | rfl <;> decide
  exact Lexeme.run_cons hstep

/-- The operator of a printed binary expression, with its spaces. -/
theorem run_operator (op : BinaryOperator) (hq : Completed q) (rest : List Char) :
    run Lexeme.step q (' ' :: (op.text ++ ' ' :: rest)) = run Lexeme.step .operand rest := by
  have htext : run Lexeme.step .ended op.text = some .operand := by cases op <;> decide
  rw [run_completed hq rfl rfl rfl, Lexeme.run_append htext]
  exact Lexeme.run_cons rfl

end

mutual

/-- **The automaton refuses what the grammar has no place for.** -/
theorem Expression.spelled_of_run (e : Expression doubles) {q : Lexeme}
    (hq : q = .operand ∨ q = .signed ∧ ¬ e.IsSigned) {rest : List Char} (hrest : Behind rest)
    {last : Lexeme} (hfinal : last.final = true)
    (hrun : run Lexeme.step q (e.tree.printed doubles ++ rest) = some last) :
    e.Spelled ∧ ∃ q', Completed q' ∧ (e.EndsInDigits → q' = .number) ∧
      run Lexeme.step q' rest = some last := by
  have hstart : q = .operand ∨ q = .signed := hq.imp_right And.left
  have hstart' : q = .operand ∨ q = .signed ∨ q = .ended := hstart.imp_right .inl
  match e with
  | .doubleConstant text value hread =>
      obtain ⟨q', hq', hwhole, hwritten⟩ := (doubles.write value).run_text hstart
      have htext : (Production.doubleConstant text).printed doubles =
          (doubles.write value).text := by
        simp [Production.printed, hread]
      rw [Expression.tree, htext, Lexeme.run_append hwritten] at hrun
      exact ⟨trivial, q', hq', hwhole, hrun⟩
  | .intConstant value _ =>
      refine ⟨trivial, .number, .inr (.inr rfl), fun _ => rfl, ?_⟩
      have hdigits {q : Lexeme} (hq : q = .operand ∨ q = .signed) :
          run Lexeme.step q (Nat.toDigits 10 value.natAbs) = some .number :=
        Lexeme.run_digits_to (by rcases hq with rfl | rfl <;> rfl) rfl Nat.toDigits_ne_nil
          (isDigit_of_mem_toDigits _)
      rw [Expression.tree, Production.printed, integerText] at hrun
      split at hrun
      · rename_i hneg
        rcases hq with rfl | ⟨-, hsigned⟩
        · rw [List.cons_append, Lexeme.run_cons (show Lexeme.operand.step '-' = some .signed from
            rfl), Lexeme.run_append (hdigits (.inr rfl))] at hrun
          exact hrun
        · exact absurd hneg hsigned
      · rw [Lexeme.run_append (hdigits hstart)] at hrun
        exact hrun
  | .boolConstant value =>
      have hnone : q.step '#' = none := by rcases hstart with rfl | rfl <;> decide
      exact absurd hrun (not_run_cons hnone _ last)
  | .builtin vname =>
      have hstep : q.step '\\' = some .ended := by rcases hstart with rfl | rfl <;> decide
      have htext : run Lexeme.step q ('\\' :: vname.1) = some .ended :=
        (Lexeme.run_cons hstep).trans (run_vname (.inr (.inr rfl)) vname)
      rw [Expression.tree, Production.printed, Lexeme.run_append htext] at hrun
      exact ⟨trivial, .ended, .inl rfl, False.elim, hrun⟩
  | .namedConstant vname =>
      have hstep : q.step '@' = some .ended := by rcases hstart with rfl | rfl <;> decide
      have htext : run Lexeme.step q ('@' :: vname.1) = some .ended :=
        (Lexeme.run_cons hstep).trans (run_vname (.inr (.inr rfl)) vname)
      rw [Expression.tree, Production.printed, Lexeme.run_append htext] at hrun
      exact ⟨trivial, .ended, .inl rfl, False.elim, hrun⟩
  | .variable vname _ =>
      rw [Expression.tree, Production.printed, Lexeme.run_append (run_vname hstart' vname)] at hrun
      exact ⟨trivial, .ended, .inl rfl, False.elim, hrun⟩
  | .index op0 op1 =>
      simp only [Expression.tree, Production.printed, List.append_assoc, List.cons_append,
        List.nil_append] at hrun
      obtain ⟨harray, q₁, hq₁, -, h₁⟩ := op0.spelled_of_run hq (.cons (by simp) _) hfinal hrun
      rw [run_completed hq₁ rfl rfl rfl] at h₁
      obtain ⟨hinner, q₂, hq₂, -, h₂⟩ := op1.spelled_of_run (.inl rfl) (.cons (by simp) _) hfinal
        h₁
      rw [run_completed hq₂ rfl rfl rfl] at h₂
      exact ⟨⟨harray, hinner⟩, .ended, .inl rfl, False.elim, h₂⟩
  | .call op0 args =>
      simp only [Expression.tree, Production.printed, List.append_assoc, List.cons_append,
        List.nil_append] at hrun
      obtain ⟨hcallee, q₁, hq₁, -, h₁⟩ := op0.spelled_of_run hq (.cons (by simp) _) hfinal hrun
      rw [run_completed hq₁ rfl rfl rfl] at h₁
      obtain ⟨hargs, q₂, hq₂, h₂⟩ := args.spelled_of_run (.cons (by simp) _) hfinal h₁
      rw [run_completed hq₂ rfl rfl rfl] at h₂
      exact ⟨⟨hcallee, hargs⟩, .ended, .inl rfl, False.elim, h₂⟩
  | .member op0 op vname =>
      rw [Expression.tree, printed_member, List.append_assoc, List.append_assoc] at hrun
      cases op with
      | dot =>
          have hdot : Behind ('.' :: (vname.1 ++ rest)) := .cons (by simp) _
          obtain ⟨hobject, q₁, hq₁, hdigits, h₁⟩ := op0.spelled_of_run hq hdot hfinal hrun
          have hname : q₁ ≠ .number → run Lexeme.step q₁ ('.' :: (vname.1 ++ rest)) =
              run Lexeme.step .ended rest := by
            intro hne
            have hstep : q₁.step '.' = some .operand := by
              rcases hq₁ with rfl | rfl | rfl
              · rfl
              · rfl
              · exact absurd rfl hne
            rw [Lexeme.run_cons hstep, Lexeme.run_append (run_vname (.inl rfl) vname)]
          have hne : q₁ ≠ .number := by
            rintro rfl
            exact not_run_point vname hrest hfinal h₁
          exact ⟨⟨fun _ hends => hne (hdigits hends), hobject⟩, .ended, .inl rfl, False.elim,
            (hname hne).symm.trans h₁⟩
      | arrow =>
          obtain ⟨hobject, q₁, hq₁, -, h₁⟩ := op0.spelled_of_run hq
            (.inr ⟨'-', _, rfl, .inr ⟨rfl, rfl⟩⟩) hfinal hrun
          have hname : run Lexeme.step q₁ ('-' :: '>' :: (vname.1 ++ rest)) =
              run Lexeme.step .ended rest := by
            rw [run_completed hq₁ rfl rfl rfl, Lexeme.run_cons (show
              Lexeme.operand.step '>' = some .operand from rfl),
              Lexeme.run_append (run_vname (.inl rfl) vname)]
          exact ⟨⟨fun h => MemberOperator.noConfusion h, hobject⟩, .ended, .inl rfl, False.elim,
            hname.symm.trans h₁⟩
  | .unary code op0 =>
      rcases hq with rfl | ⟨-, hsigned⟩
      · by_cases hload : code = .load
        · subst hload
          exact absurd hrun (not_run_cons (by decide) _ last)
        · have hsign : Lexeme.operand.step code.char = some .signed := by cases code <;> decide
          rw [Expression.tree, printed_unary doubles hload, List.cons_append,
            Lexeme.run_cons hsign] at hrun
          by_cases hsigned : op0.IsSigned
          · exact absurd hrun (not_run_signed hsigned rest last)
          · obtain ⟨hoperand, q', hq', hdigits, h⟩ := op0.spelled_of_run (.inr ⟨rfl, hsigned⟩)
              hrest hfinal hrun
            exact ⟨⟨hload, hsigned, hoperand⟩, q', hq', hdigits, h⟩
      · exact absurd trivial hsigned
  | .binary op op0 op1 =>
      by_cases hop : op = .implication
      · subst hop
        have hprinted : (Production.binary .implies op0.tree op1.tree).printed doubles =
            '(' :: (op0.tree.printed doubles ++ ' ' :: '?' ::
              ("?? ".toList ++ (op1.tree.printed doubles ++ [')']))) := rfl
        rw [Expression.tree, BinaryOperator.code, hprinted, List.cons_append, List.append_assoc,
          run_opening hstart] at hrun
        obtain ⟨-, q₁, hq₁, -, h₁⟩ := op0.spelled_of_run (.inl rfl) (.cons (by simp) _) hfinal
          hrun
        have hspace := run_completed hq₁ (show Lexeme.ended.step ' ' = some .ended from rfl) rfl rfl
        exact absurd ((hspace _).symm.trans h₁) (not_run_cons (by decide) _ last)
      · have hprinted : (Production.binary op.code op0.tree op1.tree).printed doubles ++ rest =
            '(' :: (op0.tree.printed doubles ++
              ' ' :: (op.text ++ ' ' :: (op1.tree.printed doubles ++ ')' :: rest))) := by
          simp [printed_binary doubles hop]
        rw [Expression.tree, hprinted, run_opening hstart] at hrun
        obtain ⟨hleft, q₁, hq₁, -, h₁⟩ := op0.spelled_of_run (.inl rfl) (.cons (by simp) _) hfinal
          hrun
        rw [run_operator op hq₁] at h₁
        obtain ⟨hright, q₂, hq₂, -, h₂⟩ := op1.spelled_of_run (.inl rfl) (.cons (by simp) _)
          hfinal h₁
        rw [run_completed hq₂ rfl rfl rfl] at h₂
        exact ⟨⟨hop, hleft, hright⟩, .ended, .inl rfl, False.elim, h₂⟩

theorem Actuals.spelled_of_run (args : Actuals doubles) {rest : List Char} (hrest : Behind rest)
    {last : Lexeme} (hfinal : last.final = true)
    (hrun : run Lexeme.step .operand (printedList doubles args.trees ++ rest) = some last) :
    args.Spelled ∧ ∃ q', Completed q' ∧ run Lexeme.step q' rest = some last := by
  match args with
  | .first arg =>
      obtain ⟨harg, q', hq', -, h⟩ := arg.spelled_of_run (.inl rfl) hrest hfinal hrun
      exact ⟨harg, q', hq', h⟩
  | .more args arg =>
      have hprinted : printedList doubles (args.trees ++ [arg.tree]) ++ rest =
          printedList doubles args.trees ++ ',' :: ' ' :: (arg.tree.printed doubles ++ rest) := by
        simp [printedList_append doubles args.trees_ne_nil]
      rw [Actuals.trees, hprinted] at hrun
      obtain ⟨hargs, q₁, hq₁, h₁⟩ := args.spelled_of_run (.cons (by simp) _) hfinal hrun
      have hcomma := run_completed hq₁ (show Lexeme.ended.step ',' = some .operand from rfl) rfl rfl
      rw [hcomma, Lexeme.run_cons (show Lexeme.operand.step ' ' = some .operand from rfl)] at h₁
      obtain ⟨harg, q₂, hq₂, -, h₂⟩ := arg.spelled_of_run (.inl rfl) hrest hfinal h₁
      exact ⟨⟨hargs, harg⟩, q₂, hq₂, h₂⟩

end

/-! ## Both directions -/

/-- What is printed can be read, and is read as what it was. -/
def Expression.Printable (e : Expression doubles) : Prop :=
  e.Spelled ∧ e.Kept

/-- What parses was spelled. -/
theorem Expression.spelled_of_parse (e : Expression doubles) {tree : Production}
    (hparse : parseExpression (e.tree.printed doubles) = some tree) : e.Spelled := by
  obtain ⟨last, hrun, hfinal⟩ := run_of_parseExpression hparse
  rw [← List.append_nil (e.tree.printed doubles)] at hrun
  exact (e.spelled_of_run (.inl rfl) (.inl rfl) hfinal hrun).1

/-- **A tree is printed and parsed to an equal tree if and only if it is printable.** -/
theorem printed_roundTrips_iff (doubles : Doubles) (e : Expression doubles) :
    RoundTrips doubles e.tree ↔ e.Printable := by
  constructor
  · rintro ⟨tree, hparse, hsame⟩
    have hspelled := e.spelled_of_parse hparse
    obtain rfl : e.reparsed = tree := Option.some.inj ((e.parses hspelled).symm.trans hparse)
    exact ⟨hspelled, e.sameTree_iff.mp hsame⟩
  · rintro ⟨hspelled, hkept⟩
    exact ⟨e.reparsed, e.parses hspelled, e.sameTree_iff.mpr hkept⟩

/-- Streams that take the digits before a point, and no numbers from a million on. -/
def wholeDoubles : Doubles where
  Value := { n : Nat // n < 10 ^ 6 }
  read text :=
    match ofDigits 10 (text.takeWhile isDigit) with
    | some n => if h : n < 10 ^ 6 then some ⟨n, h⟩ else none
    | none => none
  write value := .whole value.1 value.2

/-- The tree of `-(-x)`. -/
def isDoubleNegation : Production → Bool
  | .unary .neg (.unary .neg (.variable ['x'])) => true
  | _ => false

theorem eq_of_isDoubleNegation {tree : Production} (h : isDoubleNegation tree = true) :
    tree = .unary .neg (.unary .neg (.variable ['x'])) := by
  unfold isDoubleNegation at h
  split at h
  · rfl
  · cases h

/-- `-(-x)` is printed as `--x`, which is not parsed; and `3.` is printed as `3`, which is parsed as
an integer. -/
theorem doubleNegation_lost :
    parseExpression "-(-x)".toList = some (.unary .neg (.unary .neg (.variable ['x']))) ∧
      Production.printed wholeDoubles (.unary .neg (.unary .neg (.variable ['x']))) = "--x".toList ∧
      parseExpression "--x".toList = none ∧
      ¬ RoundTrips wholeDoubles (.unary .neg (.unary .neg (.variable ['x']))) ∧
      parseExpression "3.".toList = some (.doubleConstant "3.".toList) ∧
      Production.printed wholeDoubles (.doubleConstant "3.".toList) = "3".toList ∧
      parseExpression "3".toList = some (.intConstant 3) ∧
      ¬ RoundTrips wholeDoubles (.doubleConstant "3.".toList) := by
  have hnone : parseExpression "--x".toList = none := rfl
  have hinteger : parseExpression "3".toList = some (.intConstant 3) := rfl
  have hthree : Production.printed wholeDoubles (.doubleConstant "3.".toList) = "3".toList := rfl
  have hparsed : (parseExpression "-(-x)".toList).any isDoubleNegation = true := by
    decide +kernel
  obtain ⟨tree, htree, hnegation⟩ := Option.any_eq_true _ _ |>.mp hparsed
  obtain rfl := eq_of_isDoubleNegation hnegation
  refine ⟨htree, rfl, hnone, ?_, rfl, hthree, hinteger, ?_⟩
  · rintro ⟨tree, hparse, -⟩
    exact Option.some_ne_none tree (hparse.symm.trans hnone)
  · rintro ⟨tree, hparse, hsame⟩
    rw [hthree, hinteger] at hparse
    obtain rfl : Production.intConstant 3 = tree := Option.some.inj hparse
    cases hsame

end Borealis.Anno
