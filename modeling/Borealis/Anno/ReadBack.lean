import Borealis.Anno.Reading
import Borealis.Anno.Printer

/-!
# Reading what is printed

What the grammar makes of a printed expression (`Expression.reparsed`).  The brackets that the
printer writes are around binary operators only, so a unary operator in front of an operand with
suffixes is read as an operator on all of it: the suffixes go below it.
-/

namespace Borealis.Anno

open Peg

variable {doubles : Doubles}

/-- A suffix of an operand with a unary operator in front goes below the operator. -/
def Production.suffixed (suffix : Production → Production) : Production → Production
  | .unary code op => .unary code (suffix op)
  | tree => suffix tree

mutual

/-- What the grammar makes of the expression as it is printed. -/
def Expression.reparsed : Expression doubles → Production
  | .doubleConstant _ value _ =>
      match doubles.write value with
      | .whole n _ => createInt n
      | written => .doubleConstant written.text
  | .intConstant value _ =>
      if value < 0 then .unary .neg (createInt value.natAbs) else .intConstant value
  | .boolConstant value => .boolConstant value
  | .builtin vname => .builtin vname.1
  | .namedConstant vname => .namedConstant vname.1
  | .variable vname _ => .variable vname.1
  | .index op0 op1 => op0.reparsed.suffixed fun array => .binary .index array op1.reparsed
  | .call op0 args =>
      op0.reparsed.suffixed fun callee => .binary .call callee (.productionList args.reparsed)
  | .member op0 op vname =>
      op0.reparsed.suffixed fun object => .binary op.code object (.variable vname.1)
  | .unary code op0 => .unary code op0.reparsed
  | .binary op op0 op1 => .binary op.action op0.reparsed op1.reparsed

def Actuals.reparsed : Actuals doubles → List Production
  | .first arg => [arg.reparsed]
  | .more args arg => args.reparsed ++ [arg.reparsed]

end

/-! ## Leaves -/

theorem pushPrimitive_namedConstant (vname : Name) (lead spaces : Spaces) {rest : List Char}
    (hends : Ends rest) (stack : ExprStack) :
    pushPrimitive (lead.1 ++ ('@' :: vname.1 ++ (spaces.1 ++ rest))) stack =
      .matched rest (.namedConstant vname.1 :: stack) := by
  have htail := hends.tail spaces
  have hhead : ∀ c ∈ ('@' :: vname.1 ++ (spaces.1 ++ rest)).head?, isSpace c = false := by
    simp
    decide
  obtain ⟨hfloating, hinteger⟩ := number_failed
    ('@' :: vname.1 ++ (spaces.1 ++ rest)) (by simp; decide) (by simp) stack
  have hboolean : boolean ('@' :: vname.1 ++ (spaces.1 ++ rest)) stack = .failed stack :=
    boolean_failed (by simp) (by simp) stack
  have hvariable : identifier ('@' :: vname.1 ++ (spaces.1 ++ rest)) stack = .failed stack :=
    identifier_failed (by simp; decide) stack
  have hbuiltin : seq (ch '\\') identifier ('@' :: vname.1 ++ (spaces.1 ++ rest)) stack =
      .failed stack := seq_failed (ch_failed (by simp) stack)
  have hsymbol : seq (ch '@') identifier ('@' :: vname.1 ++ (spaces.1 ++ rest)) stack =
      .matched (spaces.1 ++ rest) stack := by
    refine (seq_matched ?_).trans (identifier_matched vname htail stack)
    simp [ch, char]
  -- the rules are tried in this order
  refine (sor_failed (pushRule_failed lead hhead hfloating)).trans ?_
  refine (sor_failed (pushRule_failed lead hhead hinteger)).trans ?_
  refine (sor_failed (pushRule_failed lead hhead hboolean)).trans ?_
  refine (sor_failed (pushRule_failed lead hhead hvariable)).trans ?_
  refine (sor_failed (pushRule_failed lead hhead hbuiltin)).trans ?_
  exact pushRule_matched lead spaces hhead hsymbol rfl hends

theorem exponent_matched (sign : Bool) (power : Digits) {tail : List Char}
    (htail : ∀ c ∈ tail.head?, isIdent2 c = false) (stack : ExprStack) :
    exponent (powerText sign power ++ tail) stack = .matched tail stack := by
  have hdigits := plus_char_matched power.2.1 power.2.2 (not_isDigit_of_not_isIdent2 htail) stack
  have hletter : char (fun c => c == 'e' || c == 'E') (powerText sign power ++ tail) stack =
      .matched ((if sign then '-' else '+') :: (power.1 ++ tail)) stack := by
    simp [powerText, char]
  have hsign : char (fun c => c == '+' || c == '-')
      ((if sign then '-' else '+') :: (power.1 ++ tail)) stack =
      .matched (power.1 ++ tail) stack := by
    cases sign <;> simp [char]
  exact ifmust_matched (ifmust_matched hletter hsign) hdigits

/-- Digits, a point and digits, and perhaps an exponent. -/
theorem floating_fraction (digits decimals : Digits) {more rest : List Char} (stack : ExprStack)
    (hmore : ∀ c ∈ more.head?, isDigit c = false)
    (hexponent : opt exponent more stack = .matched rest stack) :
    floating (digits.1 ++ '.' :: (decimals.1 ++ more)) stack = .matched rest stack := by
  have hpoint : ∀ c ∈ ('.' :: (decimals.1 ++ more)).head?, isDigit c = false := by
    simp
    decide
  have hplus := plus_char_matched digits.2.1 digits.2.2 hpoint stack
  have hstar := star_char digits.2.2 hpoint stack
  have hdot : ch '.' ('.' :: (decimals.1 ++ more)) stack = .matched (decimals.1 ++ more) stack := by
    simp [ch, char]
  have hdecimals := plus_char_matched decimals.2.1 decimals.2.2 hmore stack
  have hfirst : seq (plus (char isDigit)) exponent (digits.1 ++ '.' :: (decimals.1 ++ more)) stack =
      .failed stack :=
    (seq_matched hplus).trans (exponent_failed (by simp; decide) stack)
  have hsecond : seq (seq (seq (star (char isDigit)) (ch '.')) (plus (char isDigit)))
      (opt exponent) (digits.1 ++ '.' :: (decimals.1 ++ more)) stack = .matched rest stack :=
    (seq_matched ((seq_matched ((seq_matched hstar).trans hdot)).trans hdecimals)).trans hexponent
  exact sor_matched ((sor_failed hfirst).trans hsecond)

theorem opt_exponent_failed {tail : List Char} (htail : ∀ c ∈ tail.head?, isIdent2 c = false)
    (stack : ExprStack) : opt exponent tail stack = .matched tail stack := by
  rw [opt, exponent_failed htail stack]

/-- What is written with a point or an exponent is a floating number. -/
theorem floating_matched {written : Written} (hwhole : ¬ written.IsWhole) {tail : List Char}
    (htail : ∀ c ∈ tail.head?, isIdent2 c = false) (stack : ExprStack) :
    floating (written.text ++ tail) stack = .matched tail stack := by
  match written with
  | .whole _ _ => exact absurd trivial hwhole
  | .fraction digits decimals =>
      have htext : (Written.fraction digits decimals).text ++ tail =
          digits.1 ++ '.' :: (decimals.1 ++ tail) := by
        simp [Written.text]
      rw [htext]
      exact floating_fraction digits decimals stack (not_isDigit_of_not_isIdent2 htail)
        (opt_exponent_failed htail stack)
  | .exponent digits (some decimals) sign power =>
      have htext : (Written.exponent digits (some decimals) sign power).text ++ tail =
          digits.1 ++ '.' :: (decimals.1 ++ (powerText sign power ++ tail)) := by
        simp [Written.text]
      have hopt : opt exponent (powerText sign power ++ tail) stack = .matched tail stack := by
        rw [opt, exponent_matched sign power htail stack]
      rw [htext]
      exact floating_fraction digits decimals stack (by simp [powerText]; decide) hopt
  | .exponent digits none sign power =>
      have htext : (Written.exponent digits none sign power).text ++ tail =
          digits.1 ++ (powerText sign power ++ tail) := by
        simp [Written.text]
      have hplus := plus_char_matched digits.2.1 digits.2.2
        (show ∀ c ∈ (powerText sign power ++ tail).head?, isDigit c = false by
          simp [powerText]; decide) stack
      rw [htext]
      exact sor_matched (sor_matched
        ((seq_matched hplus).trans (exponent_matched sign power htail stack)))

/-- Whatever is written starts with a digit. -/
theorem Written.head (written : Written) : ∃ c more, written.text = c :: more ∧
    isDigit c = true := by
  have hdigits (digits : Digits) (more : List Char) : ∃ c text, digits.1 ++ more = c :: text ∧
      isDigit c = true := by
    obtain ⟨c, text, htext⟩ := List.exists_cons_of_ne_nil digits.2.1
    have hc := digits.2.2 c (by rw [htext]; exact List.mem_cons_self)
    exact ⟨c, text ++ more, by rw [htext]; rfl, hc⟩
  match written with
  | .whole value _ =>
      obtain ⟨c, text, htext⟩ := List.exists_cons_of_ne_nil (Nat.toDigits_ne_nil (n := value)
        (b := 10))
      have hc := isDigit_of_mem_toDigits value c (by rw [htext]; exact List.mem_cons_self)
      exact ⟨c, text, htext, hc⟩
  | .fraction digits decimals => exact hdigits digits _
  | .exponent digits none sign power => exact hdigits digits _
  | .exponent digits (some decimals) sign power => exact hdigits digits _

theorem pushPrimitive_floating {written : Written} (hwhole : ¬ written.IsWhole)
    (lead spaces : Spaces) {rest : List Char} (hends : Ends rest) (stack : ExprStack) :
    pushPrimitive (lead.1 ++ (written.text ++ (spaces.1 ++ rest))) stack =
      .matched rest (.doubleConstant written.text :: stack) := by
  have hhead : ∀ c ∈ (written.text ++ (spaces.1 ++ rest)).head?, isSpace c = false := by
    obtain ⟨c, more, htext, hc⟩ := written.head
    rw [htext]
    simpa using isSpace_of_isOperandStart (isOperandStart_of_isIdent2 (isIdent2_of_isDigit hc))
  exact sor_matched (pushRule_matched lead spaces hhead
    (floating_matched hwhole (hends.tail spaces) stack) rfl hends)

/-! ## An expression, with or without a unary operator in front -/

/-- A printed text is read as a tree: as a postfix expression, or as a unary operator on one.  It
may be followed by spaces; digits with nothing after them must not run into a point. -/
inductive ReadsBack (r : ExprParser) : List Char → Production → Prop → Prop
  | unsigned {text : List Char} {tree : Production} {bare : Prop} (hbegins : Begins text)
      (hunary : ∀ c ∈ text.head?, NoUnary c) (htree : ∀ code op, tree ≠ .unary code op)
      (hreads : ∀ closed : Spaces, Reads r 0 (text ++ closed.1) tree (bare ∧ closed.1 = [])) :
      ReadsBack r text tree bare
  | signed {text : List Char} {tree : Production} {bare : Prop} (code : UnOpcode)
      (hbegins : Begins text)
      (hreads : ∀ closed : Spaces, Reads r 0 (text ++ closed.1) tree (bare ∧ closed.1 = [])) :
      ReadsBack r (code.char :: text) (.unary code tree) bare

section

variable {r : ExprParser} {text behind : List Char} {tree : Production} {bare : Prop}

theorem Begins.append (hbegins : Begins text) (more : List Char) : Begins (text ++ more) := by
  obtain ⟨c, rest, rfl, hc⟩ := hbegins
  exact ⟨c, rest ++ more, rfl, hc⟩

theorem isSpace_char (code : UnOpcode) : isSpace code.char = false := by
  cases code <;> rfl

theorem ReadsBack.begins (hback : ReadsBack r text tree bare) : Begins text := by
  cases hback with
  | unsigned hbegins _ _ _ => exact hbegins
  | signed code _ _ => exact ⟨code.char, _, rfl, isSpace_char code⟩

theorem Reads.weaken {n : Nat} {bare' : Prop} (hreads : Reads r n text tree bare')
    (hbare : bare' → bare) : Reads r n text tree bare :=
  fun lead rest stack hfollow hpoint => hreads lead rest stack hfollow fun h => hpoint (hbare h)

/-- From the rank of unary operators on, both are read alike. -/
theorem ReadsBack.reads (hback : ReadsBack r text tree bare) (closed : Spaces) (n : Nat) :
    Reads r (n + 1) (text ++ closed.1) tree (bare ∧ closed.1 = []) := by
  cases hback with
  | unsigned hbegins hunary _ hreads =>
      refine (hreads closed).ofPostfixExpr (hbegins.append closed.1) ?_ (n + 1)
      obtain ⟨c, more, rfl, -⟩ := hbegins
      exact hunary
  | signed code hbegins hreads =>
      have h := reads_unary (hreads closed) (hbegins.append closed.1) code noSpaces
      exact (h.mono (Nat.succ_le_succ (Nat.zero_le n))).weaken False.elim

/-- A suffix is read behind the operand, below the unary operator. -/
theorem ReadsBack.suffix {build : Production → Production} (hback : ReadsBack r text tree bare)
    (hbuild : ∀ tree code op, build tree ≠ .unary code op)
    (hsuffix : ∀ {text : List Char} {tree : Production}, Reads r 0 text tree bare →
      ∀ closed : Spaces, Reads r 0 (text ++ (behind ++ closed.1)) (build tree) False) :
    ReadsBack r (text ++ behind) (tree.suffixed build) False := by
  have hobject {text : List Char} {tree : Production}
      (hreads : ∀ closed : Spaces, Reads r 0 (text ++ closed.1) tree (bare ∧ closed.1 = []))
      (closed : Spaces) : Reads r 0 (text ++ behind ++ closed.1) (build tree)
        (False ∧ closed.1 = []) := by
    have h := hreads noSpaces
    rw [show text ++ noSpaces.1 = text from List.append_nil text] at h
    rw [List.append_assoc]
    exact (hsuffix (h.weaken And.left) closed).weaken False.elim
  cases hback with
  | unsigned hbegins hunary htree hreads =>
      have htext : tree.suffixed build = build tree := by
        cases tree with
        | unary code op => exact absurd rfl (htree code op)
        | _ => rfl
      rw [htext]
      refine .unsigned (hbegins.append behind) ?_ (hbuild tree) (hobject hreads)
      obtain ⟨c, more, rfl, -⟩ := hbegins
      exact hunary
  | signed code hbegins hreads => exact .signed code (hbegins.append behind) (hobject hreads)

/-- A primitive, which no unary operator starts. -/
theorem ReadsBack.primitive {c : Char} {more : List Char} (hcons : text = c :: more)
    (hc : isSpace c = false) (hunary : NoUnary c) (htree : ∀ code op, tree ≠ .unary code op)
    (hprimitive : ReadsPrimitive text tree bare) : ReadsBack r text tree bare := by
  subst hcons
  exact .unsigned ⟨c, more, rfl, hc⟩ (by simpa using hunary) htree
    fun closed => reads_primitive hprimitive closed

/-- Digits are read as an integer. -/
theorem readsBack_integer {value : Nat} (hvalue : value < 2 ^ 63) :
    ReadsBack r (Nat.toDigits 10 value) (createInt value) True := by
  obtain ⟨c, more, hcons⟩ := List.exists_cons_of_ne_nil (Nat.toDigits_ne_nil (n := value)
    (b := 10))
  have hc := isIdent2_of_isDigit
    (isDigit_of_mem_toDigits value c (by rw [hcons]; exact List.mem_cons_self))
  exact .primitive hcons (isSpace_of_isOperandStart (isOperandStart_of_isIdent2 hc))
    (noUnary_of_isIdent2 hc) (fun _ _ h => Production.noConfusion h)
    fun lead spaces _ stack hends hpoint =>
      pushPrimitive_integer hvalue lead spaces hends (hpoint trivial) stack

end

/-! ## Where the unary operators are -/

theorem Production.suffixed_unary {build : Production → Production} {tree : Production}
    (hbuild : ∀ tree code op, build tree ≠ .unary code op) :
    (∃ code op, tree.suffixed build = .unary code op) ↔ ∃ code op, tree = .unary code op := by
  cases tree with
  | unary code op => exact ⟨fun _ => ⟨code, op, rfl⟩, fun _ => ⟨code, build op, rfl⟩⟩
  | _ =>
      refine ⟨fun ⟨code, op, heq⟩ => ?_, fun ⟨code, op, heq⟩ => Production.noConfusion heq⟩
      exact absurd heq (hbuild _ code op)

/-- A unary operator is read where the printer puts one in front. -/
theorem Expression.isSigned_iff (e : Expression doubles) :
    e.IsSigned ↔ ∃ code op, e.reparsed = .unary code op := by
  have hbinary (code : BinOpcode) (op1 : Production) (tree : Production) (code' : UnOpcode)
      (op : Production) : Production.binary code tree op1 ≠ .unary code' op :=
    fun h => Production.noConfusion h
  match e with
  | .doubleConstant _ value _ =>
      simp only [Expression.IsSigned, Expression.reparsed, false_iff]
      rintro ⟨code, op, heq⟩
      split at heq <;> exact Production.noConfusion heq
  | .intConstant value _ =>
      simp only [Expression.IsSigned, Expression.reparsed]
      split
      · rename_i hneg
        exact ⟨fun _ => ⟨_, _, rfl⟩, fun _ => hneg⟩
      · rename_i hneg
        exact ⟨fun h => absurd h hneg, fun ⟨_, _, heq⟩ => Production.noConfusion heq⟩
  | .boolConstant _ => exact ⟨False.elim, fun ⟨_, _, heq⟩ => Production.noConfusion heq⟩
  | .builtin _ => exact ⟨False.elim, fun ⟨_, _, heq⟩ => Production.noConfusion heq⟩
  | .namedConstant _ => exact ⟨False.elim, fun ⟨_, _, heq⟩ => Production.noConfusion heq⟩
  | .variable _ _ => exact ⟨False.elim, fun ⟨_, _, heq⟩ => Production.noConfusion heq⟩
  | .index op0 _ => exact op0.isSigned_iff.trans (Production.suffixed_unary (hbinary _ _)).symm
  | .call op0 _ => exact op0.isSigned_iff.trans (Production.suffixed_unary (hbinary _ _)).symm
  | .member op0 _ _ => exact op0.isSigned_iff.trans (Production.suffixed_unary (hbinary _ _)).symm
  | .unary _ _ => exact ⟨fun _ => ⟨_, _, rfl⟩, fun _ => trivial⟩
  | .binary _ _ _ => exact ⟨False.elim, fun ⟨_, _, heq⟩ => Production.noConfusion heq⟩

/-- No expression is read as a list. -/
theorem Expression.reparsed_ne_list (e : Expression doubles) (data : List Production) :
    e.reparsed ≠ .productionList data := by
  have hsuffixed {build : Production → Production} (tree : Production)
      (hbuild : ∀ tree, build tree ≠ .productionList data) :
      tree.suffixed build ≠ .productionList data := by
    cases tree with
    | unary code op => exact fun h => Production.noConfusion h
    | _ => exact hbuild _
  match e with
  | .doubleConstant _ value _ =>
      simp only [Expression.reparsed]
      split <;> exact fun h => Production.noConfusion h
  | .intConstant value _ =>
      simp only [Expression.reparsed]
      split <;> exact fun h => Production.noConfusion h
  | .index _ _ => exact hsuffixed _ fun _ h => Production.noConfusion h
  | .call _ _ => exact hsuffixed _ fun _ h => Production.noConfusion h
  | .member _ _ _ => exact hsuffixed _ fun _ h => Production.noConfusion h
  | .boolConstant _ => exact fun h => Production.noConfusion h
  | .builtin _ => exact fun h => Production.noConfusion h
  | .namedConstant _ => exact fun h => Production.noConfusion h
  | .variable _ _ => exact fun h => Production.noConfusion h
  | .unary _ _ => exact fun h => Production.noConfusion h
  | .binary _ _ _ => exact fun h => Production.noConfusion h

/-! ## The printed text, one constructor at a time -/

theorem printed_binary (doubles : Doubles) {op : BinaryOperator} (hop : op ≠ .implication)
    (op0 op1 : Production) :
    (Production.binary op.code op0 op1).printed doubles =
      '(' :: (op0.printed doubles ++
        ' ' :: (op.text ++ ' ' :: (op1.printed doubles ++ [')']))) := by
  cases op with
  | implication => exact absurd rfl hop
  | _ => rfl

theorem printed_member (doubles : Doubles) (op : MemberOperator) (op0 : Production)
    (vname : List Char) :
    (Production.binary op.code op0 (.variable vname)).printed doubles =
      op0.printed doubles ++ (op.text ++ vname) := by
  cases op <;> rfl

theorem printed_unary (doubles : Doubles) {code : UnOpcode} (hcode : code ≠ .load)
    (op : Production) :
    (Production.unary code op).printed doubles = code.char :: op.printed doubles := by
  cases code with
  | load => exact absurd rfl hcode
  | _ => rfl

theorem printedList_append (doubles : Doubles) {data : List Production} (hdata : data ≠ [])
    (prod : Production) :
    printedList doubles (data ++ [prod]) =
      printedList doubles data ++ ',' :: ' ' :: prod.printed doubles := by
  induction data with
  | nil => exact absurd rfl hdata
  | cons first data ih =>
      cases data with
      | nil => rfl
      | cons second data =>
          have hrest := ih (List.cons_ne_nil second data)
          simp only [List.cons_append] at hrest
          simp only [List.cons_append, printedList, hrest, List.append_assoc]

theorem Actuals.trees_ne_nil (args : Actuals doubles) : args.trees ≠ [] := by
  cases args <;> simp [Actuals.trees]

/-- One space. -/
def oneSpace : Spaces :=
  ⟨[' '], by simp; rfl⟩

section

variable {r : ExprParser}

/-- A unary operator in front of an operand without one. -/
theorem ReadsBack.unary {text : List Char} {tree : Production} {bare : Prop}
    (hback : ReadsBack r text tree bare) (htree : ∀ code op, tree ≠ .unary code op)
    (code : UnOpcode) : ReadsBack r (code.char :: text) (.unary code tree) bare := by
  cases hback with
  | unsigned hbegins _ _ hreads => exact .signed code hbegins hreads
  | signed code' _ _ => exact absurd rfl (htree code' _)

theorem readsBack_double (value : doubles.Value) :
    ReadsBack r (doubles.write value).text
      (match doubles.write value with
      | .whole n _ => createInt n
      | written => .doubleConstant written.text) (doubles.write value).IsWhole := by
  have hfloating {written : Written} (hwhole : ¬ written.IsWhole) :
      ReadsBack r written.text (.doubleConstant written.text) written.IsWhole := by
    obtain ⟨c, more, hcons, hc⟩ := written.head
    have hident := isIdent2_of_isDigit hc
    exact .primitive hcons (isSpace_of_isOperandStart (isOperandStart_of_isIdent2 hident))
      (noUnary_of_isIdent2 hident) (fun _ _ h => Production.noConfusion h)
      fun lead spaces _ stack hends _ => pushPrimitive_floating hwhole lead spaces hends stack
  cases doubles.write value with
  | whole n hn => exact readsBack_integer (by omega)
  | fraction digits decimals => exact hfloating id
  | exponent digits decimals sign power => exact hfloating id

theorem readsBack_int (value : Int) (hvalue : -2 ^ 31 ≤ value ∧ value < 2 ^ 31) :
    ReadsBack r (integerText value)
      (if value < 0 then .unary .neg (createInt value.natAbs) else .intConstant value) True := by
  have hbound : value.natAbs < 2 ^ 63 := by omega
  rw [integerText]
  split
  · have hdigits := readsBack_integer (r := r) hbound
    exact hdigits.unary (fun _ _ h => Production.noConfusion h) .neg
  · have htree : createInt value.natAbs = .intConstant value := by
      rw [createInt, toInt32_of_lt (by omega), Int.natAbs_of_nonneg (by omega)]
    rw [← htree]
    exact readsBack_integer hbound

/-- A binary operator with the brackets around it. -/
theorem readsBack_binary {op : BinaryOperator} {left right : List Char}
    {tree tree' : Production} {bare bare' : Prop} (hr : NonGrowing r)
    (hleft : ReadsBack r left tree bare) (hright : ReadsBack r right tree' bare') :
    ReadsBack (readRank r 12) ('(' :: (left ++ ' ' :: (op.text ++ ' ' :: (right ++ [')']))))
      (.binary op.action tree tree') False := by
  have hstarts (rest : List Char) :
      StartsOperand (oneSpace.1 ++ (right ++ noSpaces.1 ++ rest)) := by
    intro c hc
    obtain rfl : ' ' = c := by simpa [oneSpace] using hc
    exact .inr rfl
  have hrank : op.rank + 2 ≤ 12 := by
    have h := rank_lt op
    omega
  have hinner := (reads_binary hr (hleft.reads oneSpace (op.rank + 1))
    (hright.reads noSpaces op.rank) (hright.begins.append noSpaces.1) oneSpace hstarts).mono hrank
  have hbegins := (hleft.begins.append oneSpace.1).append
    (op.text ++ (oneSpace.1 ++ (right ++ noSpaces.1)))
  refine .unsigned ⟨'(', _, rfl, rfl⟩ (by simp; exact ⟨by decide, by decide, by decide, by decide⟩)
    (fun _ _ h => Production.noConfusion h) fun closed => ?_
  have h := reads_paren hinner hbegins noSpaces closed
  have hbare : Reads (readRank r 12) 0 _ (.binary op.action tree tree') (False ∧ closed.1 = []) :=
    h.weaken False.elim
  simpa [noSpaces, oneSpace] using hbare

end

/-! ## The whole expression -/

mutual

/-- **What is spelled is read.**  Every bracket nests one deeper, and reads a character. -/
theorem Expression.readsBack (e : Expression doubles) (depth : Nat) (hspelled : e.Spelled)
    (hdepth : (e.tree.printed doubles).length ≤ depth) :
    ReadsBack (readExpr depth) (e.tree.printed doubles) e.reparsed e.EndsInDigits := by
  match e with
  | .doubleConstant text value hread =>
      have htext : (Production.doubleConstant text).printed doubles =
          (doubles.write value).text := by
        simp [Production.printed, hread]
      rw [Expression.tree, htext]
      exact readsBack_double value
  | .intConstant value hvalue => exact readsBack_int value hvalue
  | .boolConstant _ => exact hspelled.elim
  | .builtin vname =>
      refine .primitive rfl rfl ⟨by decide, by decide, by decide, by decide⟩
        (fun _ _ h => Production.noConfusion h) fun lead spaces _ stack hends _ => ?_
      have hkept : (Leaf.builtin vname).Kept := trivial
      exact pushPrimitive_leaf hkept lead spaces hends False.elim stack
  | .namedConstant vname =>
      exact .primitive rfl rfl ⟨by decide, by decide, by decide, by decide⟩
        (fun _ _ h => Production.noConfusion h) fun lead spaces _ stack hends _ =>
          pushPrimitive_namedConstant vname lead spaces hends stack
  | .variable vname hname =>
      obtain ⟨c, more, hcons, hc⟩ := vname.head
      have hident := isIdent2_of_isIdent1 hc
      refine .primitive hcons (isSpace_of_isOperandStart (isOperandStart_of_isIdent2 hident))
        (noUnary_of_isIdent2 hident) (fun _ _ h => Production.noConfusion h)
        fun lead spaces _ stack hends _ => ?_
      have hleaf : vname.1 ≠ "true".toList ∧ vname.1 ≠ "false".toList :=
        ⟨fun h => hname.1 (h ▸ List.prefix_refl _), fun h => hname.2 (h ▸ List.prefix_refl _)⟩
      have hkept : (Leaf.identifier vname hleaf).Kept := hname
      exact pushPrimitive_leaf hkept lead spaces hends False.elim stack
  | .index op0 op1 =>
      cases depth with
      | zero => simp [Expression.tree, Production.printed] at hdepth
      | succ depth =>
          have hlength : (op0.tree.printed doubles).length ≤ depth + 1 ∧
              (op1.tree.printed doubles).length ≤ depth := by
            simp [Expression.tree, Production.printed] at hdepth
            omega
          have harray := op0.readsBack (depth + 1) hspelled.1 hlength.1
          have hinner := op1.readsBack depth hspelled.2 hlength.2
          refine harray.suffix (fun _ _ _ h => Production.noConfusion h) fun hreads closed => ?_
          have h := reads_index (readRank_nonGrowing depth) hreads (hinner.reads noSpaces 11)
            (hinner.begins.append noSpaces.1) noSpaces closed
          rw [readExpr_succ]
          simpa [noSpaces] using h
  | .call op0 args =>
      cases depth with
      | zero => simp [Expression.tree, Production.printed] at hdepth
      | succ depth =>
          have hlength : (op0.tree.printed doubles).length ≤ depth + 1 ∧
              (printedList doubles args.trees).length ≤ depth := by
            simp [Expression.tree, Production.printed] at hdepth
            omega
          have hcallee := op0.readsBack (depth + 1) hspelled.1 hlength.1
          have hargs := args.readsBack depth hspelled.2 hlength.2
          refine hcallee.suffix (fun _ _ _ h => Production.noConfusion h) fun hreads closed => ?_
          have h := reads_call (readRank_nonGrowing depth) hreads hargs.1 hargs.2 noSpaces closed
          rw [readExpr_succ]
          simpa [noSpaces, Production.printed] using h
  | .member op0 op vname =>
      have hprinted := printed_member doubles op op0.tree vname.1
      have hlength : (op0.tree.printed doubles).length ≤ depth := by
        simp only [Expression.tree, hprinted, List.length_append] at hdepth
        omega
      have hobject := op0.readsBack depth hspelled.2 hlength
      rw [Expression.tree, hprinted]
      refine hobject.suffix (fun _ _ _ h => Production.noConfusion h) fun hreads closed => ?_
      have h := reads_member (readExpr_nonGrowing depth) hreads hspelled.1 noSpaces vname closed
      simpa [noSpaces] using h
  | .unary code op0 =>
      have hprinted := printed_unary doubles hspelled.1 op0.tree
      have hlength : (op0.tree.printed doubles).length ≤ depth := by
        simp only [Expression.tree, hprinted, List.length_cons] at hdepth
        omega
      have hoperand := op0.readsBack depth hspelled.2.2 hlength
      rw [Expression.tree, hprinted]
      refine hoperand.unary (fun code' op h => ?_) code
      exact hspelled.2.1 (op0.isSigned_iff.mpr ⟨code', op, h⟩)
  | .binary op op0 op1 =>
      have hprinted := printed_binary doubles hspelled.1 op0.tree op1.tree
      cases depth with
      | zero => simp [Expression.tree, hprinted] at hdepth
      | succ depth =>
          have hlength : (op0.tree.printed doubles).length ≤ depth ∧
              (op1.tree.printed doubles).length ≤ depth := by
            simp [Expression.tree, hprinted] at hdepth
            omega
          have hleft := op0.readsBack depth hspelled.2.1 hlength.1
          have hright := op1.readsBack depth hspelled.2.2 hlength.2
          rw [Expression.tree, hprinted]
          exact readsBack_binary (readExpr_nonGrowing depth) hleft hright

theorem Actuals.readsBack (args : Actuals doubles) (depth : Nat) (hspelled : args.Spelled)
    (hdepth : (printedList doubles args.trees).length ≤ depth) :
    ReadsArguments (readExpr depth) (printedList doubles args.trees) args.reparsed ∧
      Begins (printedList doubles args.trees) := by
  match args with
  | .first arg =>
      have harg := arg.readsBack depth hspelled hdepth
      have hreads := harg.reads noSpaces 11
      rw [show arg.tree.printed doubles ++ noSpaces.1 = arg.tree.printed doubles from
        List.append_nil _] at hreads
      exact ⟨readsArguments_first hreads arg.reparsed_ne_list, harg.begins⟩
  | .more args arg =>
      have hprinted := printedList_append doubles args.trees_ne_nil arg.tree
      have hlength : (printedList doubles args.trees).length ≤ depth ∧
          (arg.tree.printed doubles).length ≤ depth := by
        simp [Actuals.trees, hprinted] at hdepth
        omega
      have hargs := args.readsBack depth hspelled.1 hlength.1
      have harg := arg.readsBack depth hspelled.2 hlength.2
      have hreads := harg.reads noSpaces 11
      rw [show arg.tree.printed doubles ++ noSpaces.1 = arg.tree.printed doubles from
        List.append_nil _] at hreads
      rw [Actuals.trees, hprinted]
      exact ⟨readsArguments_more (readRank_nonGrowing depth) hargs.1 hreads harg.begins
        arg.reparsed_ne_list oneSpace, hargs.2.append _⟩

end

/-- What is spelled is parsed, to what it is read as. -/
theorem Expression.parses (e : Expression doubles) (hspelled : e.Spelled) :
    parseExpression (e.tree.printed doubles) = some e.reparsed := by
  have hread := ((e.readsBack _ hspelled (Nat.le_refl _)).reads noSpaces 11).matched noSpaces
    (.nil 13) []
  have hexpr : readExpr ((e.tree.printed doubles).length + 1) (e.tree.printed doubles) [] =
      .matched [] [e.reparsed] := by
    rw [readExpr_succ]
    simpa [noSpaces] using hread
  have hspace : spaceUntilEof [] [e.reparsed] = .matched [] [e.reparsed] := rfl
  unfold parseExpression
  rw [seq_matched hexpr, hspace]

end Borealis.Anno
