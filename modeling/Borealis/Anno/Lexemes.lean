import Borealis.Anno.Spelling

/-!
# An automaton that reads floating numbers

The automaton of `Spelling` stops at floating numbers.  This one goes through them: it knows the
digits before and behind a point and the parts of an exponent (`Lexeme`).  It refuses a unary
operator right after a unary operator, a letter right after digits and a point, and the two
characters that only the printer writes.

A letter of an exponent with no digits behind it must not be the end of the text either.  An
automaton of `Peg.Scans` accepts wherever it has got to, so this one counts the characters that
are left and refuses the last one where a number is not finished (`lastStep`).
-/

namespace Borealis.Anno

open Peg

/-- What has been read: nothing of an operand, a unary operator, digits, digits and a point, the
digits behind it, the letter of an exponent, its sign, or a whole operand. -/
inductive Lexeme
  | operand
  | signed
  | number
  | point
  | fraction
  | exponent
  | power
  | ended
deriving DecidableEq

namespace Lexeme

def onSpace : Lexeme → Option Lexeme
  | exponent | power => none
  | operand => some operand
  | signed => some signed
  | _ => some ended

def onDigit : Lexeme → Option Lexeme
  | operand | signed | number => some number
  | point | fraction => some fraction
  | exponent => none
  | power | ended => some ended

def onName (c : Char) : Lexeme → Option Lexeme
  | number | fraction => some (if c == 'e' || c == 'E' then exponent else ended)
  | point => if c == 'e' || c == 'E' then some exponent else none
  | exponent | power => none
  | _ => some ended

def onPoint : Lexeme → Option Lexeme
  | operand | signed => some fraction
  | number => some point
  | exponent | power => none
  | _ => some operand

def onSign (c : Char) : Lexeme → Option Lexeme
  | operand => some signed
  | signed => none
  | exponent => if c == '-' then some power else none
  | power => none
  | _ => some operand

def onOther (c : Char) : Lexeme → Option Lexeme
  | exponent => if c == '+' then some power else none
  | power => none
  | _ => some (if c == ')' || c == ']' then ended else operand)

def step (q : Lexeme) (c : Char) : Option Lexeme :=
  if isSpace c then q.onSpace
  else if isDigit c then q.onDigit
  else if isIdent2 c || c == '\\' || c == '@' then q.onName c
  else if c == '.' then q.onPoint
  else if c == '?' || c == '#' then none
  else if isSign c then q.onSign c
  else q.onOther c

/-- Nothing of a number is missing. -/
def final : Lexeme → Bool
  | exponent | power => false
  | _ => true

/-- An operand may come next. -/
def Start (q : Lexeme) (_ : List Char) : Prop :=
  q = operand ∨ q = signed

def Operand (q : Lexeme) (_ : List Char) : Prop :=
  q = operand

/-- An operand has been read, to its end. -/
def Ended (q : Lexeme) (rest : List Char) : Prop :=
  q = ended ∨ q = fraction ∨ q = point ∨ q = number ∧ rest.head? ≠ some '.'

/-! ## Runs -/

section

variable {q q' : Lexeme}

theorem run_cons {c : Char} {text : List Char} (hstep : q.step c = some q') :
    run step q (c :: text) = run step q' text := by
  rw [run, List.foldlM_cons, hstep]
  rfl

theorem run_append {text : List Char} (hrun : run step q text = some q') (rest : List Char) :
    run step q (text ++ rest) = run step q' rest := by
  rw [run, List.foldlM_append]
  rw [run] at hrun
  rw [hrun]
  rfl

theorem step_space {c : Char} (hc : isSpace c = true) (q : Lexeme) : q.step c = q.onSpace := by
  simp [step, hc]

theorem step_digit {c : Char} (hc : isDigit c = true) (q : Lexeme) : q.step c = q.onDigit := by
  simp [step, hc, not_isSpace_of_isIdent2 (isIdent2_of_isDigit hc)]

theorem step_name {c : Char} (hc : isIdent2 c = true) (hdigit : isDigit c = false) (q : Lexeme) :
    q.step c = q.onName c := by
  simp [step, hc, hdigit, not_isSpace_of_isIdent2 hc]

/-- The states that spaces do not change. -/
theorem run_spaces (hq : q.onSpace = some q) {text : List Char}
    (htext : ∀ c ∈ text, isSpace c = true) : run step q text = some q := by
  induction text with
  | nil => rfl
  | cons c text ih =>
      rw [run_cons ((step_space (htext c List.mem_cons_self) q).trans hq)]
      exact ih fun d hd => htext d (List.mem_cons_of_mem c hd)

/-- The states that digits do not change. -/
theorem run_digits (hq : q.onDigit = some q) {text : List Char}
    (htext : ∀ c ∈ text, isDigit c = true) : run step q text = some q := by
  induction text with
  | nil => rfl
  | cons c text ih =>
      rw [run_cons ((step_digit (htext c List.mem_cons_self) q).trans hq)]
      exact ih fun d hd => htext d (List.mem_cons_of_mem c hd)

/-- Digits lead to where they go on. -/
theorem run_digits_to (hq : q.onDigit = some q') (hq' : q'.onDigit = some q') {text : List Char}
    (hne : text ≠ []) (htext : ∀ c ∈ text, isDigit c = true) : run step q text = some q' := by
  cases text with
  | nil => exact absurd rfl hne
  | cons c text =>
      rw [run_cons ((step_digit (htext c List.mem_cons_self) q).trans hq)]
      exact run_digits hq' fun d hd => htext d (List.mem_cons_of_mem c hd)

theorem step_ended {c : Char} (hc : isIdent2 c = true) : ended.step c = some ended := by
  cases hdigit : isDigit c with
  | true => rw [step_digit hdigit]; rfl
  | false => rw [step_name hc hdigit]; rfl

theorem run_ended {text : List Char} (htext : ∀ c ∈ text, isIdent2 c = true) :
    run step ended text = some ended := by
  induction text with
  | nil => rfl
  | cons c text ih =>
      rw [run_cons (step_ended (htext c List.mem_cons_self))]
      exact ih fun d hd => htext d (List.mem_cons_of_mem c hd)

/-- A name where an operand starts. -/
theorem run_name (hq : q = operand ∨ q = signed ∨ q = ended) {c : Char} {text : List Char}
    (hc : isIdent1 c = true) (htext : ∀ d ∈ text, isIdent2 d = true) :
    run step q (c :: text) = some ended := by
  have hstep : q.step c = some ended := by
    rw [step_name (isIdent2_of_isIdent1 hc) (isDigit_of_isIdent1 hc)]
    rcases hq with rfl | rfl | rfl <;> rfl
  rw [run_cons hstep]
  exact run_ended htext

/-- The letter of an exponent, its sign and its digits. -/
theorem run_exponent (hq : q = number ∨ q = point ∨ q = fraction) {c sign : Char}
    {digits : List Char} (hc : c = 'e' ∨ c = 'E') (hsign : sign = '+' ∨ sign = '-')
    (hne : digits ≠ []) (hdigits : ∀ d ∈ digits, isDigit d = true) :
    run step q (c :: sign :: digits) = some ended := by
  have hletter : q.step c = some exponent := by
    rcases hc with rfl | rfl <;> rcases hq with rfl | rfl | rfl <;> rfl
  have hpower : exponent.step sign = some power := by rcases hsign with rfl | rfl <;> rfl
  rw [run_cons hletter, run_cons hpower]
  exact run_digits_to rfl rfl hne hdigits

/-- Spaces behind an operand. -/
theorem run_trailing {rest : List Char} (hq : Ended q rest) :
    ∃ q', run step q (rest.takeWhile isSpace) = some q' ∧ Ended q' (rest.dropWhile isSpace) ∧
      q'.final = true := by
  cases rest with
  | nil =>
      refine ⟨q, rfl, hq, ?_⟩
      rcases hq with rfl | rfl | rfl | ⟨rfl, -⟩ <;> rfl
  | cons c rest =>
      cases hc : isSpace c with
      | false =>
          simp only [List.takeWhile_cons, hc, List.dropWhile_cons]
          refine ⟨q, rfl, hq, ?_⟩
          rcases hq with rfl | rfl | rfl | ⟨rfl, -⟩ <;> rfl
      | true =>
          have hspace : q.step c = some ended := by
            rw [step_space hc]
            rcases hq with rfl | rfl | rfl | ⟨rfl, -⟩ <;> rfl
          have hrun : run step ended (rest.takeWhile isSpace) = some ended :=
            run_spaces rfl (List.all_eq_true.mp List.all_takeWhile)
          simp only [List.takeWhile_cons, hc, List.dropWhile_cons, if_true]
          exact ⟨ended, (run_cons hspace).trans hrun, .inl rfl, rfl⟩

end

end Lexeme

/-! ## Counting what is left -/

open Lexeme in
/-- A step with the number of characters that are left. -/
def lastStep (s : Nat × Lexeme) (c : Char) : Option (Nat × Lexeme) :=
  match s.2.step c with
  | some q => if s.1 = 1 ∧ q.final = false then none else some (s.1 - 1, q)
  | none => none

/-- The place, with the count of what is left. -/
def At (place : Lexeme → List Char → Prop) (s : Nat × Lexeme) (input : List Char) : Prop :=
  s.1 = input.length ∧ place s.2 input

theorem run_lastStep {q q' : Lexeme} {text : List Char}
    (hrun : run Lexeme.step q text = some q') (hfinal : q'.final = true) (rest : List Char) :
    run lastStep ((text ++ rest).length, q) text = some (rest.length, q') := by
  induction text generalizing q with
  | nil =>
      obtain rfl : q = q' := by simpa [run] using hrun
      rfl
  | cons c text ih =>
      cases hstep : q.step c with
      | none => simp [run, hstep] at hrun
      | some q₁ =>
          have hrun' : run Lexeme.step q₁ text = some q' := by simpa [run, hstep] using hrun
          have hnot : ¬ ((c :: text ++ rest).length = 1 ∧ q₁.final = false) := by
            rintro ⟨hlength, hunfinished⟩
            obtain rfl : text = [] := by
              cases text with
              | nil => rfl
              | cons _ _ => simp at hlength
            obtain rfl : q₁ = q' := by simpa [run] using hrun'
            rw [hfinal] at hunfinished
            exact Bool.noConfusion hunfinished
          have hlast : lastStep ((c :: text ++ rest).length, q) c =
              some ((text ++ rest).length, q₁) := by
            rw [lastStep]
            simp only [hstep]
            rw [if_neg hnot]
            simp
          rw [run, List.foldlM_cons, hlast]
          exact ih hrun'

/-- What is accepted with the count is a run that finishes every number. -/
theorem run_of_accepts {q : Lexeme} {text : List Char}
    (haccepts : accepts lastStep (text.length, q) text = true)
    (hfinal : text = [] → q.final = true) :
    ∃ q', run Lexeme.step q text = some q' ∧ q'.final = true := by
  induction text generalizing q with
  | nil => exact ⟨q, rfl, hfinal rfl⟩
  | cons c text ih =>
      cases hstep : q.step c with
      | none => simp [accepts, lastStep, hstep] at haccepts
      | some q₁ =>
          simp only [accepts, lastStep, hstep] at haccepts
          split at haccepts
          · rename_i s hs
            split at hs
            · simp at hs
            · rename_i hnot
              obtain rfl : (text.length, q₁) = s := by simpa using hs
              rw [Lexeme.run_cons hstep]
              refine ih haccepts fun hnil => ?_
              subst hnil
              cases hq : q₁.final with
              | true => rfl
              | false => exact absurd ⟨rfl, hq⟩ hnot
          · simp at haccepts

/-! ## The tokens -/

/-- Nothing spoils the stack: the automaton reads floating numbers too. -/
def Never (_ : ExprStack) : Prop :=
  False

/-- The parser takes the automaton from one kind of place to another. -/
abbrev Lexes (before after : Lexeme → List Char → Prop) (parser : ExprParser) : Prop :=
  Scans lastStep Never (At before) (At after) parser

theorem never_preserves (parser : ExprParser) : Preserves Never parser :=
  fun _ _ h => h.elim

section

variable {before after : Lexeme → List Char → Prop} {parser : ExprParser}

/-- A parser is known by the runs on what it consumes. -/
theorem lexes_of_run (hparser : ∀ input stack rest stack',
    parser input stack = .matched rest stack' → ∀ q, before q input →
      ∃ text q', input = text ++ rest ∧ run Lexeme.step q text = some q' ∧ q'.final = true ∧
        after q' rest) : Lexes before after parser := by
  rintro input stack rest stack' hmatch - ⟨n, q⟩ ⟨hn, hq⟩
  obtain ⟨text, q', rfl, hrun, hfinal, hafter⟩ := hparser input stack rest stack' hmatch q hq
  obtain rfl : n = (text ++ rest).length := hn
  exact ⟨(rest.length, q'), ⟨rfl, hafter⟩, accepts_append (run_lastStep hrun hfinal rest) rest⟩

theorem lexes_spaces (hplace : ∀ q c rest, before q (c :: rest) → isSpace c = true →
      ∃ q', q.step c = some q' ∧ q'.final = true ∧ before q' rest) :
    Lexes before before (star (char isSpace)) := by
  refine Scans.star (lexes_of_run fun input stack rest stack' hmatch q hq => ?_)
    (never_preserves _)
  obtain ⟨c, rfl, hc, -⟩ := char_inv hmatch
  obtain ⟨q', hstep, hfinal, hq'⟩ := hplace q c rest hq hc
  exact ⟨[c], q', rfl, (Lexeme.run_cons hstep).trans rfl, hfinal, hq'⟩

theorem lexes_start : Lexes Lexeme.Start Lexeme.Start (star (char isSpace)) :=
  lexes_spaces fun q c rest hq hc => by
    rcases hq with rfl | rfl
    · exact ⟨_, Lexeme.step_space hc _, rfl, .inl rfl⟩
    · exact ⟨_, Lexeme.step_space hc _, rfl, .inr rfl⟩

theorem lexes_operand : Lexes Lexeme.Operand Lexeme.Operand (star (char isSpace)) :=
  lexes_spaces fun q c rest hq hc => by
    obtain rfl : q = .operand := hq
    exact ⟨_, Lexeme.step_space hc _, rfl, rfl⟩

theorem lexes_ended : Lexes Lexeme.Ended Lexeme.Ended (star (char isSpace)) :=
  lexes_spaces fun q c rest hq hc => by
    refine ⟨.ended, ?_, rfl, .inl rfl⟩
    rw [Lexeme.step_space hc]
    rcases hq with rfl | rfl | rfl | ⟨rfl, -⟩ <;> rfl

/-- The parser with its spaces. -/
theorem lexes_pad (hbefore : Lexes before before (star (char isSpace)))
    (hparser : Lexes before after parser) (hafter : Lexes after after (star (char isSpace))) :
    Lexes before after (pad parser) :=
  hbefore.seq (hparser.seq hafter (never_preserves _)) (never_preserves _)

theorem Lexes.action {action : List Char → ExprStack → Option ExprStack}
    (hparser : Lexes before after parser) : Lexes before after (ifapply parser action) :=
  Scans.ifapply hparser fun _ _ _ _ h => h.elim

end

theorem identifier_inv {input rest : List Char} {stack stack' : ExprStack}
    (hmatch : identifier input stack = .matched rest stack') :
    ∃ c text, input = c :: (text ++ rest) ∧ isIdent1 c = true ∧
      ∀ d ∈ text, isIdent2 d = true := by
  obtain ⟨middle, stack₁, hfirst, hstar⟩ := seq_inv hmatch
  obtain ⟨c, rfl, hc, -⟩ := char_inv hfirst
  obtain ⟨text, rfl, htext⟩ := star_char_inv hstar
  exact ⟨c, text, rfl, hc, htext⟩

theorem lexes_identifier : Lexes Lexeme.Start Lexeme.Ended identifier := by
  refine lexes_of_run fun input stack rest stack' hmatch q hq => ?_
  obtain ⟨c, text, rfl, hc, htext⟩ := identifier_inv hmatch
  refine ⟨c :: text, .ended, rfl, Lexeme.run_name ?_ hc htext, rfl, .inl rfl⟩
  exact hq.imp_right .inl

theorem lexes_variable : Lexes Lexeme.Start Lexeme.Ended pushVariableRule :=
  lexes_pad lexes_start lexes_identifier.action lexes_ended

/-- A name behind a mark. -/
theorem lexes_mark {c : Char} (hc : Lexeme.operand.step c = some .ended)
    (hc' : Lexeme.signed.step c = some .ended) :
    Lexes Lexeme.Start Lexeme.Ended (pad (ifapply (seq (ch c) identifier) pushString)) := by
  refine lexes_pad lexes_start (Lexes.action ?_) lexes_ended
  refine lexes_of_run fun input stack rest stack' hmatch q hq => ?_
  obtain ⟨middle, stack₁, hmark, hname⟩ := seq_inv hmatch
  obtain rfl := ch_inv hmark
  obtain ⟨d, text, rfl, hd, htext⟩ := identifier_inv hname
  have hstep : q.step c = some .ended := by
    rcases hq with rfl | rfl
    · exact hc
    · exact hc'
  exact ⟨c :: d :: text, .ended, rfl,
    (Lexeme.run_cons hstep).trans (Lexeme.run_name (.inr (.inr rfl)) hd htext), rfl, .inl rfl⟩

theorem string_inv {text input rest : List Char} {stack stack' : ExprStack}
    (hmatch : string text input stack = .matched rest stack') : input = text ++ rest := by
  simp only [string] at hmatch
  split at hmatch
  · rename_i hle
    obtain ⟨more, rfl⟩ := hle
    obtain ⟨rfl, -⟩ : more = rest ∧ stack = stack' := by simpa using hmatch
    rfl
  · simp at hmatch

theorem lexes_boolean : Lexes Lexeme.Start Lexeme.Ended pushBooleanRule := by
  refine lexes_pad lexes_start (Lexes.action ?_) lexes_ended
  refine lexes_of_run fun input stack rest stack' hmatch q hq => ?_
  have hstring (text : List Char) (htext : text = "true".toList ∨ text = "false".toList)
      {stack₁ : ExprStack} (hread : string text input stack₁ = .matched rest stack') :
      ∃ text q', input = text ++ rest ∧ run Lexeme.step q text = some q' ∧ q'.final = true ∧
        q'.Ended rest := by
    obtain rfl := string_inv hread
    refine ⟨text, .ended, rfl, ?_, rfl, .inl rfl⟩
    rcases htext with rfl | rfl <;> rcases hq with rfl | rfl <;> decide
  rcases sor_inv hmatch with hread | ⟨stack₁, -, hread⟩
  · exact hstring _ (.inl rfl) hread
  · exact hstring _ (.inr rfl) hread

/-! ## Numbers -/

theorem exponent_inv {input rest : List Char} {stack stack' : ExprStack}
    (hmatch : exponent input stack = .matched rest stack') :
    ∃ c sign digits, input = c :: sign :: (digits ++ rest) ∧ (c = 'e' ∨ c = 'E') ∧
      (sign = '+' ∨ sign = '-') ∧ digits ≠ [] ∧ ∀ d ∈ digits, isDigit d = true := by
  obtain ⟨middle, stack₁, hmark, hdigits⟩ := seq_inv (ifmust_inv hmatch)
  obtain ⟨middle', stack₂, hletter, hnext⟩ := seq_inv (ifmust_inv hmark)
  obtain ⟨c, rfl, hc, -⟩ := char_inv hletter
  obtain ⟨sign, rfl, hsign, -⟩ := char_inv hnext
  obtain ⟨d, digits, rfl, hd, hrest⟩ := plus_char_inv hdigits
  refine ⟨c, sign, d :: digits, rfl, by simpa using hc, by simpa using hsign,
    List.cons_ne_nil d digits, fun e he => ?_⟩
  rcases List.mem_cons.mp he with rfl | he
  · exact hd
  · exact hrest e he

/-- Digits, and an exponent where there is one. -/
theorem run_opt_exponent {input rest : List Char} {stack stack' : ExprStack}
    (hmatch : opt exponent input stack = .matched rest stack') {q : Lexeme}
    (hq : q = .number ∨ q = .point ∨ q = .fraction) :
    ∃ text q', input = text ++ rest ∧ run Lexeme.step q text = some q' ∧
      (q' = q ∨ q' = .ended) := by
  simp only [opt] at hmatch
  split at hmatch
  · rename_i hexponent
    obtain ⟨c, sign, digits, rfl, hc, hsign, hne, hdigits⟩ := exponent_inv (hexponent.trans hmatch)
    exact ⟨c :: sign :: digits, .ended, rfl, Lexeme.run_exponent hq hc hsign hne hdigits, .inr rfl⟩
  · obtain ⟨rfl, -⟩ : input = rest ∧ _ = stack' := by simpa using hmatch
    exact ⟨[], q, rfl, rfl, .inl rfl⟩
  · simp at hmatch

theorem floating_run {input rest : List Char} {stack stack' : ExprStack}
    (hmatch : floating input stack = .matched rest stack') {q : Lexeme}
    (hq : q = .operand ∨ q = .signed) :
    ∃ text q', input = text ++ rest ∧ run Lexeme.step q text = some q' ∧
      (q' = .ended ∨ q' = .fraction ∨ q' = .point) := by
  have hnumber : q.onDigit = some .number := by rcases hq with rfl | rfl <;> rfl
  have hpoint : Lexeme.number.step '.' = some .point := rfl
  rcases sor_inv hmatch with hmatch | ⟨stack₁, -, hmatch⟩
  · rcases sor_inv hmatch with hmatch | ⟨stack₁, -, hmatch⟩
    · obtain ⟨middle, stack₂, hplus, hexponent⟩ := seq_inv hmatch
      obtain ⟨d, digits, rfl, hd, hdigits⟩ := plus_char_inv hplus
      obtain ⟨c, sign, power, rfl, hc, hsign, hne, hpower⟩ := exponent_inv hexponent
      have hrun : run Lexeme.step q (d :: digits) = some .number :=
        (Lexeme.run_cons ((Lexeme.step_digit hd q).trans hnumber)).trans
          (Lexeme.run_digits rfl hdigits)
      exact ⟨d :: digits ++ c :: sign :: power, .ended, by simp,
        (Lexeme.run_append hrun _).trans (Lexeme.run_exponent (.inl rfl) hc hsign hne hpower),
        .inl rfl⟩
    · obtain ⟨middle, stack₂, hmatch, hopt⟩ := seq_inv hmatch
      obtain ⟨middle', stack₃, hmatch, hplus⟩ := seq_inv hmatch
      obtain ⟨middle'', stack₄, hstar, hdot⟩ := seq_inv hmatch
      obtain rfl := ch_inv hdot
      obtain ⟨digits, rfl, hdigits⟩ := star_char_inv hstar
      obtain ⟨d, decimals, rfl, hd, hdecimals⟩ := plus_char_inv hplus
      obtain ⟨text, q', rfl, htext, hq'⟩ := run_opt_exponent hopt (q := .fraction) (.inr (.inr rfl))
      have hrun : run Lexeme.step q (digits ++ '.' :: d :: decimals) = some .fraction := by
        have hbehind (q₁ : Lexeme) (hq₁ : q₁ = .point ∨ q₁ = .fraction) :
            run Lexeme.step q₁ (d :: decimals) = some .fraction := by
          have hstep : q₁.onDigit = some .fraction := by rcases hq₁ with rfl | rfl <;> rfl
          exact (Lexeme.run_cons ((Lexeme.step_digit hd q₁).trans hstep)).trans
            (Lexeme.run_digits rfl hdecimals)
        cases digits with
        | nil =>
            have hfirst : q.step '.' = some .fraction := by rcases hq with rfl | rfl <;> rfl
            exact (Lexeme.run_cons hfirst).trans (hbehind _ (.inr rfl))
        | cons c digits =>
            have hrun := Lexeme.run_digits_to hnumber rfl
              (List.cons_ne_nil c digits) hdigits
            exact (Lexeme.run_append hrun _).trans
              ((Lexeme.run_cons hpoint).trans (hbehind _ (.inl rfl)))
      refine ⟨digits ++ '.' :: d :: decimals ++ text, q', by simp,
        (Lexeme.run_append hrun _).trans htext, ?_⟩
      rcases hq' with rfl | rfl
      · exact .inr (.inl rfl)
      · exact .inl rfl
  · obtain ⟨middle, stack₂, hmatch, hopt⟩ := seq_inv hmatch
    obtain ⟨middle', stack₃, hmatch, hstar⟩ := seq_inv hmatch
    obtain ⟨middle'', stack₄, hplus, hdot⟩ := seq_inv hmatch
    obtain rfl := ch_inv hdot
    obtain ⟨d, digits, rfl, hd, hdigits⟩ := plus_char_inv hplus
    obtain ⟨decimals, rfl, hdecimals⟩ := star_char_inv hstar
    have hdigit : run Lexeme.step q (d :: digits) = some .number :=
      (Lexeme.run_cons ((Lexeme.step_digit hd q).trans hnumber)).trans
        (Lexeme.run_digits rfl hdigits)
    have hbehind : ∃ q₁, run Lexeme.step .point decimals = some q₁ ∧
        (q₁ = .point ∨ q₁ = .fraction) := by
      cases decimals with
      | nil => exact ⟨.point, rfl, .inl rfl⟩
      | cons c decimals =>
          exact ⟨.fraction, Lexeme.run_digits_to rfl rfl (List.cons_ne_nil c decimals) hdecimals,
            .inr rfl⟩
    obtain ⟨q₁, hrun₁, hq₁⟩ := hbehind
    obtain ⟨text, q', rfl, htext, hq'⟩ := run_opt_exponent hopt (q := q₁) (.inr hq₁)
    have hrun : run Lexeme.step q (d :: digits ++ '.' :: decimals) = some q₁ :=
      (Lexeme.run_append hdigit _).trans ((Lexeme.run_cons hpoint).trans hrun₁)
    refine ⟨d :: digits ++ '.' :: decimals ++ text, q', by simp,
      (Lexeme.run_append hrun _).trans htext, ?_⟩
    rcases hq' with rfl | rfl
    · exact .inr hq₁.symm
    · exact .inl rfl

theorem lexes_floating : Lexes Lexeme.Start Lexeme.Ended pushFloatingRule := by
  refine lexes_pad lexes_start (Lexes.action ?_) lexes_ended
  refine lexes_of_run fun input stack rest stack' hmatch q hq => ?_
  obtain ⟨text, q', rfl, hrun, hq'⟩ := floating_run hmatch hq
  refine ⟨text, q', rfl, hrun, ?_, ?_⟩
  · rcases hq' with rfl | rfl | rfl <;> rfl
  · rcases hq' with h | h | h
    · exact .inl h
    · exact .inr (.inl h)
    · exact .inr (.inr (.inl h))

/-- Digits that the rule for floating numbers has left have no point behind them. -/
theorem integer_run {input rest : List Char} {stack stack' stack₀ stack₁ : ExprStack}
    (hmatch : integer input stack = .matched rest stack')
    (hfloating : ifapply floating pushDouble input stack₀ = .failed stack₁) {q : Lexeme}
    (hq : q = .operand ∨ q = .signed) :
    ∃ text q', input = text ++ rest ∧ run Lexeme.step q text = some q' ∧ q'.Ended rest := by
  rcases integer_inv hmatch with ⟨c, text, rfl, hc, htext⟩ | ⟨digits, rfl, hne, hdigits⟩
  · have hzero : q.step '0' = some .number := by rcases hq with rfl | rfl <;> rfl
    have hmark : Lexeme.number.step c = some .ended := by rcases hc with rfl | rfl <;> rfl
    exact ⟨'0' :: c :: text, .ended, rfl,
      (Lexeme.run_cons hzero).trans ((Lexeme.run_cons hmark).trans (Lexeme.run_ended htext)),
      .inl rfl⟩
  · have hdigit : q.onDigit = some .number := by rcases hq with rfl | rfl <;> rfl
    refine ⟨digits, .number, rfl, Lexeme.run_digits_to hdigit rfl hne hdigits,
      .inr (.inr (.inr ⟨rfl, fun hpoint => ?_⟩))⟩
    obtain ⟨more, rfl⟩ : ∃ more, rest = '.' :: more := by
      cases rest with
      | nil => simp at hpoint
      | cons d more =>
          obtain rfl : d = '.' := by simpa using hpoint
          exact ⟨more, rfl⟩
    have hnot := floating_of_point more hne hdigits stack₀
    cases hresult : floating (digits ++ '.' :: more) stack₀ with
    | failed stack₂ => exact hnot stack₂ hresult
    | error => simp [ifapply, hresult] at hfloating
    | matched rest₂ stack₂ => simp [ifapply, hresult, pushDouble] at hfloating

/-- The rule for integers comes after the one for floating numbers. -/
theorem lexes_integer : Scans lastStep Never
    (fun s input => At Lexeme.Start s input ∧
      ∃ stack stack', pushFloatingRule input stack = .failed stack')
    (At Lexeme.Ended) pushIntegerRule := by
  rintro input stack rest stack' hmatch - ⟨n, q⟩ ⟨⟨hn, hq⟩, stack₀, stack₁, hfloating⟩
  obtain ⟨middle, hrule, rfl⟩ := pad_inv hmatch
  obtain ⟨stack₂, hinteger, -⟩ := ifapply_inv hrule
  obtain ⟨token, q₁, htoken, hrun₁, hq₁⟩ := integer_run hinteger (pad_failed_inv hfloating) hq
  obtain ⟨q₂, hrun₂, hq₂, hfinal⟩ := Lexeme.run_trailing hq₁
  have hlead : run Lexeme.step q (input.takeWhile isSpace) = some q :=
    Lexeme.run_spaces (by rcases hq with rfl | rfl <;> rfl) (List.all_eq_true.mp List.all_takeWhile)
  have hrun : run Lexeme.step q
      (input.takeWhile isSpace ++ (token ++ middle.takeWhile isSpace)) = some q₂ :=
    (Lexeme.run_append hlead _).trans ((Lexeme.run_append hrun₁ _).trans hrun₂)
  have hinput : input.takeWhile isSpace ++ (token ++ middle.takeWhile isSpace) ++
      middle.dropWhile isSpace = input := by
    rw [List.append_assoc, List.append_assoc, List.takeWhile_append_dropWhile, ← htoken,
      List.takeWhile_append_dropWhile]
  have hcount : n = input.length := hn
  have heq := accepts_append (run_lastStep hrun hfinal (middle.dropWhile isSpace))
    (middle.dropWhile isSpace)
  rw [hinput, ← hcount] at heq
  exact ⟨_, ⟨rfl, hq₂⟩, heq⟩

theorem lexes_primitive : Lexes Lexeme.Start Lexeme.Ended pushPrimitive := by
  have hnames : Lexes Lexeme.Start Lexeme.Ended
      (choice [pushBooleanRule, pushVariableRule, pushBuiltinRule, pushSymbolRule]) := by
    refine Scans.choice fun parser hparser => ?_
    simp only [List.mem_cons, List.not_mem_nil, or_false] at hparser
    rcases hparser with rfl | rfl | rfl | rfl
    · exact lexes_boolean
    · exact lexes_variable
    · exact lexes_mark rfl rfl
    · exact lexes_mark rfl rfl
  exact lexes_floating.sor_of_failed
    (lexes_integer.sor (hnames.weaken (fun _ _ h => h.1) fun _ _ h => h))

/-! ## Between the operands -/

/-- A symbol behind an operand, in any of the states that end one. -/
theorem lexes_symbol {text : List Char} {after : Lexeme → List Char → Prop} {q' : Lexeme}
    (hafter : ∀ rest, after q' rest) (hfinal : q'.final = true)
    (hended : run Lexeme.step .ended text = some q')
    (hfraction : run Lexeme.step .fraction text = some q')
    (hpoint : run Lexeme.step .point text = some q')
    (hnumber : text.head? = some '.' ∨ run Lexeme.step .number text = some q')
    (hspaces : Lexes after after (star (char isSpace))) :
    Lexes Lexeme.Ended after (strpad text) := by
  refine lexes_pad lexes_ended (lexes_of_run fun input stack rest stack' hmatch q hq => ?_) hspaces
  obtain rfl := string_inv hmatch
  refine ⟨text, q', rfl, ?_, hfinal, hafter rest⟩
  rcases hq with rfl | rfl | rfl | ⟨rfl, hdot⟩
  · exact hended
  · exact hfraction
  · exact hpoint
  · rcases hnumber with hhead | hnumber
    · cases text with
      | nil => simp at hhead
      | cons c text => exact absurd hhead hdot
    · exact hnumber

theorem chpad_eq_strpad (c : Char) : chpad c = strpad [c] := by
  have hch : ch c = string [c] := by
    funext input stack
    cases input with
    | nil => rfl
    | cons d input =>
        by_cases hd : d = c
        · subst hd
          simp [ch, char, string]
        · simp [ch, char, string, hd, Ne.symm hd, List.cons_prefix_cons]
  rw [chpad, strpad, hch]

theorem lexeme_places :
    Places lastStep Never (At Lexeme.Start) (At Lexeme.Operand) (At Lexeme.Ended) where
  keeps :=
    { primitive := never_preserves _
      property := never_preserves _
      indirectProperty := never_preserves _
      emptyList := fun _ _ _ _ h => h.elim
      collect := fun _ _ _ _ h => h.elim
      binary := fun _ _ _ _ _ _ h => h.elim
      unary := fun _ _ _ _ _ h => h.elim }
  keepsName := never_preserves _
  starts _ _ h := ⟨h.1, .inl h.2⟩
  primitive := lexes_primitive
  name := lexes_variable.weaken (fun _ _ h => ⟨h.1, .inl h.2⟩) fun _ _ h => h
  paren := by
    refine lexes_pad lexes_start (lexes_of_run fun input stack rest stack' hmatch q hq => ?_)
      lexes_operand
    obtain rfl := ch_inv hmatch
    refine ⟨['('], .operand, rfl, ?_, rfl, rfl⟩
    rcases hq with rfl | rfl <;> decide
  opens c hc := by
    rw [chpad_eq_strpad]
    rcases hc with rfl | rfl | rfl | rfl
    · exact lexes_symbol (fun _ => rfl) rfl (by decide) (by decide) (by decide)
        (.inr (by decide)) lexes_operand
    · exact lexes_symbol (fun _ => rfl) rfl (by decide) (by decide) (by decide)
        (.inr (by decide)) lexes_operand
    · exact lexes_symbol (fun _ => rfl) rfl (by decide) (by decide) (by decide)
        (.inr (by decide)) lexes_operand
    · exact lexes_symbol (fun _ => rfl) rfl (by decide) (by decide) (by decide) (.inl rfl)
        lexes_operand
  closes c hc := by
    rw [chpad_eq_strpad]
    rcases hc with rfl | rfl
    · exact lexes_symbol (fun _ => .inl rfl) rfl (by decide) (by decide) (by decide)
        (.inr (by decide)) lexes_ended
    · exact lexes_symbol (fun _ => .inl rfl) rfl (by decide) (by decide) (by decide)
        (.inr (by decide)) lexes_ended
  arrow := lexes_symbol (fun _ => rfl) rfl (by decide) (by decide) (by decide)
    (.inr (by decide)) lexes_operand
  operator op := lexes_symbol (fun _ => rfl) rfl (by cases op <;> decide) (by cases op <;> decide)
    (by cases op <;> decide) (.inr (by cases op <;> decide)) lexes_operand
  sign code := by
    refine lexes_pad lexes_operand (lexes_of_run fun input stack rest stack' hmatch q hq => ?_)
      lexes_start
    obtain rfl := string_inv hmatch
    obtain rfl : q = .operand := hq
    exact ⟨[code.char], .signed, rfl, by cases code <;> decide, rfl, .inr rfl⟩

/-- **The automaton reads every text that is parsed, and finishes every number.** -/
theorem run_of_parseExpression {input : List Char} {tree : Production}
    (hparse : parseExpression input = some tree) :
    ∃ q, run Lexeme.step .operand input = some q ∧ q.final = true := by
  obtain ⟨middle, hexpr, hempty⟩ := parseExpression_inv hparse
  obtain ⟨s, hs, heq⟩ := lexeme_places.expr _ input [] middle [tree] hexpr id
    (input.length, .operand) ⟨rfl, rfl⟩
  obtain ⟨s', -, heq'⟩ := lexes_ended middle [] _ [] (star_char_eq isSpace middle []) id s hs
  refine run_of_accepts ?_ fun _ => rfl
  rw [heq, heq', hempty]
  rfl

end Borealis.Anno
