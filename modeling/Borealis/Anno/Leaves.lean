import Borealis.Anno.Rendering
import Mathlib.Tactic.IntervalCases

/-!
# Reading the leaves

What the lexical rules do on the text of a leaf.  `pushPrimitive` tries numbers with a point before
integers and booleans before variables; `pushPrimitive_leaf` is where these orders matter, and
where the two conditions on what follows a leaf come from: an integer must not run into a point,
and no leaf may run into more of a name.
-/

namespace Borealis.Anno

open Peg

/-! ## Characters -/

/-- No character of a name and no space stands at the start of a text. -/
def Ends (rest : List Char) : Prop :=
  ∀ c ∈ rest.head?, isIdent2 c = false ∧ isSpace c = false

theorem Ends.noSpace {rest : List Char} (hends : Ends rest) :
    ∀ c ∈ rest.head?, isSpace c = false :=
  fun c hc => (hends c hc).2

theorem isIdent2_of_isDigit {c : Char} (hc : isDigit c = true) : isIdent2 c = true := by
  simp [isIdent2, hc]

/-- Where a name does not go on, digits do not. -/
theorem not_isDigit_of_not_isIdent2 {tail : List Char}
    (htail : ∀ c ∈ tail.head?, isIdent2 c = false) : ∀ c ∈ tail.head?, isDigit c = false := by
  intro c hc
  by_contra hcontra
  rw [Bool.not_eq_false] at hcontra
  have hident := htail c hc
  rw [isIdent2_of_isDigit hcontra] at hident
  exact Bool.noConfusion hident

theorem isIdent2_of_isIdent1 {c : Char} (hc : isIdent1 c = true) : isIdent2 c = true := by
  simp [isIdent2, hc]

theorem isSpace_of_mem {c : Char} (hc : isSpace c = true) :
    c = ' ' ∨ c = '\n' ∨ c = '\r' ∨ c = '\t' ∨ c = '\x0b' ∨ c = '\x0c' := by
  simpa [isSpace, or_assoc] using hc

/-- No space is part of a name. -/
theorem not_isIdent2_of_isSpace {c : Char} (hc : isSpace c = true) : isIdent2 c = false := by
  rcases isSpace_of_mem hc with rfl | rfl | rfl | rfl | rfl | rfl <;> rfl

/-- A letter is no digit and no point. -/
theorem isDigit_of_isIdent1 {c : Char} (hc : isIdent1 c = true) : isDigit c = false := by
  simp only [isIdent1, isAlpha, Bool.or_eq_true, beq_iff_eq, range_iff] at hc
  rcases hc with rfl | hc
  · rfl
  · by_contra hcontra
    rw [Bool.not_eq_false, isDigit, range_iff] at hcontra
    have hcodes : '9'.toNat < 'a'.toNat ∧ '9'.toNat < 'A'.toNat := by decide
    omega

/-- After a token and its spaces no name goes on. -/
theorem Ends.tail {rest : List Char} (hends : Ends rest) (spaces : Spaces) :
    ∀ c ∈ (spaces.1 ++ rest).head?, isIdent2 c = false := by
  intro c hc
  rcases hspaces : spaces.1 with _ | ⟨d, text⟩
  · rw [hspaces] at hc
    exact (hends c hc).1
  · rw [hspaces] at hc
    obtain rfl : d = c := by simpa using hc
    exact not_isIdent2_of_isSpace (spaces.2 d (by simp [hspaces]))

/-! ## Names -/

/-- A name is read to its end. -/
theorem identifier_matched (name : Name) {tail : List Char}
    (htail : ∀ c ∈ tail.head?, isIdent2 c = false) (stack : ExprStack) :
    identifier (name.1 ++ tail) stack = .matched tail stack := by
  obtain ⟨text, htext⟩ := name
  cases text with
  | nil => exact htext.elim
  | cons c text =>
      have hfirst : char isIdent1 (c :: (text ++ tail)) stack = .matched (text ++ tail) stack := by
        simp [char, htext.1]
      exact (seq_matched hfirst).trans (star_char (List.all_eq_true.mp htext.2) htail stack)

theorem identifier_failed {input : List Char} (hinput : ∀ c ∈ input.head?, isIdent1 c = false)
    (stack : ExprStack) : identifier input stack = .failed stack := by
  refine seq_failed ?_
  cases input with
  | nil => rfl
  | cons c input => simp [char, hinput c rfl]

theorem Name.head (name : Name) : ∃ c text, name.1 = c :: text ∧ isIdent1 c = true := by
  obtain ⟨text, htext⟩ := name
  cases text with
  | nil => exact htext.elim
  | cons c text => exact ⟨c, text, rfl, htext.1⟩

/-- A name that is no boolean and does not start with one is none to the rule for booleans. -/
theorem not_start_of_name {text : List Char} {name : Name} {tail : List Char}
    (htext : ∀ c ∈ text, isIdent2 c = true) (hname : ¬ text <+: name.1)
    (htail : ∀ c ∈ tail.head?, isIdent2 c = false) : ¬ text <+: name.1 ++ tail := by
  intro hle
  rcases start_append_cases hle with h | ⟨c, hc, hhead⟩
  · exact hname h
  · have hmem : c ∈ text := hc.subset (by simp)
    have hnot := htail c hhead
    rw [htext c hmem] at hnot
    exact Bool.noConfusion hnot

/-! ## Numbers -/

theorem plus_char_failed {accepts : Char → Bool} {input : List Char}
    (hinput : ∀ c ∈ input.head?, accepts c = false) (stack : ExprStack) :
    plus (char accepts) input stack = .failed stack := by
  refine seq_failed ?_
  cases input with
  | nil => rfl
  | cons c input => simp [char, hinput c rfl]

theorem plus_char_matched {accepts : Char → Bool} {text rest : List Char} (htext : text ≠ [])
    (haccepts : ∀ c ∈ text, accepts c = true) (hstop : ∀ c ∈ rest.head?, accepts c = false)
    (stack : ExprStack) : plus (char accepts) (text ++ rest) stack = .matched rest stack := by
  cases text with
  | nil => exact absurd rfl htext
  | cons c text =>
      have hfirst : char accepts (c :: (text ++ rest)) stack = .matched (text ++ rest) stack := by
        simp [char, haccepts c List.mem_cons_self]
      exact (seq_matched hfirst).trans
        (star_char (fun d hd => haccepts d (List.mem_cons_of_mem c hd)) hstop stack)

theorem ch_failed {c : Char} {input : List Char} (hinput : input.head? ≠ some c)
    (stack : ExprStack) : ch c input stack = .failed stack := by
  cases input with
  | nil => rfl
  | cons d input =>
      have hne : d ≠ c := fun heq => hinput (by rw [heq]; rfl)
      simp [ch, char, hne]

theorem exponent_failed {input : List Char}
    (hinput : ∀ c ∈ input.head?, isIdent2 c = false) (stack : ExprStack) :
    exponent input stack = .failed stack := by
  cases input with
  | nil => rfl
  | cons c input =>
      have hc := hinput c rfl
      have he : c ≠ 'e' := by rintro rfl; revert hc; decide
      have hE : c ≠ 'E' := by rintro rfl; revert hc; decide
      simp [exponent, ifmust, char, he, hE]

/-- Digits that no point and no name follows are no floating number. -/
theorem floating_failed {digits tail : List Char} (hdigits : ∀ c ∈ digits, isDigit c = true)
    (htail : ∀ c ∈ tail.head?, isDigit c = false) (hpoint : tail.head? ≠ some '.')
    (hexponent : digits ≠ [] → ∀ c ∈ tail.head?, isIdent2 c = false) (stack : ExprStack) :
    floating (digits ++ tail) stack = .failed stack := by
  have hstar := star_char hdigits htail stack
  have hdot := ch_failed hpoint stack
  have hsecond : seq (seq (seq (star (char isDigit)) (ch '.')) (plus (char isDigit)))
      (opt exponent) (digits ++ tail) stack = .failed stack :=
    seq_failed (seq_failed ((seq_matched hstar).trans hdot))
  cases digits with
  | nil =>
      have hplus : plus (char isDigit) tail stack = .failed stack := plus_char_failed htail stack
      have hfirst : seq (plus (char isDigit)) exponent tail stack = .failed stack :=
        seq_failed hplus
      have hthird : seq (seq (seq (plus (char isDigit)) (ch '.')) (star (char isDigit)))
          (opt exponent) tail stack = .failed stack :=
        seq_failed (seq_failed (seq_failed hplus))
      exact (sor_failed ((sor_failed hfirst).trans hsecond)).trans hthird
  | cons c text =>
      have hplus := plus_char_matched (List.cons_ne_nil c text) hdigits htail stack
      have hfirst : seq (plus (char isDigit)) exponent (c :: text ++ tail) stack = .failed stack :=
        (seq_matched hplus).trans (exponent_failed (hexponent (List.cons_ne_nil c text)) stack)
      have hthird : seq (seq (seq (plus (char isDigit)) (ch '.')) (star (char isDigit)))
          (opt exponent) (c :: text ++ tail) stack = .failed stack :=
        seq_failed (seq_failed ((seq_matched hplus).trans hdot))
      exact (sor_failed ((sor_failed hfirst).trans hsecond)).trans hthird

theorem integer_failed {input : List Char} (hinput : ∀ c ∈ input.head?, isDigit c = false)
    (stack : ExprStack) : integer input stack = .failed stack := by
  cases input with
  | nil => rfl
  | cons c input =>
      have hc : isDigit c = false := hinput c rfl
      have hzero : c ≠ '0' := by rintro rfl; revert hc; decide
      have hrange : range '1' '9' c = false := by
        by_contra hcontra
        have hdigit : isDigit c = true :=
          range_mono (by simpa using hcontra) (by decide) (by decide)
        rw [hc] at hdigit
        exact Bool.noConfusion hdigit
      simp [integer, sor, ifmust, seq, ch, char, hzero, hrange]

/-! ## Decimal integers -/

theorem isDigit_digitChar {n : Nat} (hn : n < 10) : isDigit n.digitChar = true := by
  interval_cases n <;> rfl

/-- The last digit of a decimal integer. -/
theorem toDigits_step {n : Nat} (hn : 10 ≤ n) :
    Nat.toDigits 10 n = Nat.toDigits 10 (n / 10) ++ [(n % 10).digitChar] :=
  Nat.toDigits_of_base_le (by decide) hn

theorem isDigit_of_mem_toDigits (n : Nat) : ∀ c ∈ Nat.toDigits 10 n, isDigit c = true := by
  induction n using Nat.strongRecOn with
  | ind n ih =>
      intro c hc
      rcases Nat.lt_or_ge n 10 with hlt | hge
      · rw [Nat.toDigits_of_lt_base hlt] at hc
        obtain rfl := List.mem_singleton.mp hc
        exact isDigit_digitChar hlt
      · rw [toDigits_step hge, List.mem_append] at hc
        rcases hc with hc | hc
        · exact ih (n / 10) (by omega) c hc
        · obtain rfl := List.mem_singleton.mp hc
          exact isDigit_digitChar (Nat.mod_lt n (by decide))

/-- No decimal integer but `0` starts with a zero. -/
theorem toDigits_head {n : Nat} (hn : 0 < n) :
    ∃ c text, Nat.toDigits 10 n = c :: text ∧ range '1' '9' c = true := by
  induction n using Nat.strongRecOn with
  | ind n ih =>
      rcases Nat.lt_or_ge n 10 with hlt | hge
      · refine ⟨n.digitChar, [], Nat.toDigits_of_lt_base hlt, ?_⟩
        interval_cases n <;> rfl
      · obtain ⟨c, text, htext, hc⟩ := ih (n / 10) (by omega) (by omega)
        exact ⟨c, text ++ [(n % 10).digitChar], by rw [toDigits_step hge, htext]; rfl, hc⟩

theorem digitValue_digitChar {n : Nat} (hn : n < 10) : digitValue n.digitChar = some n := by
  interval_cases n <;> rfl

theorem ofDigits_toDigits (n : Nat) : ofDigits 10 (Nat.toDigits 10 n) = some n := by
  induction n using Nat.strongRecOn with
  | ind n ih =>
      rcases Nat.lt_or_ge n 10 with hlt | hge
      · simp [Nat.toDigits_of_lt_base hlt, ofDigits, digitValue_digitChar hlt, hlt]
      · have hmod : n % 10 < 10 := Nat.mod_lt n (by decide)
        have hprevious : ofDigits 10 (Nat.toDigits 10 (n / 10)) = some (n / 10) :=
          ih (n / 10) (by omega)
        rw [ofDigits] at hprevious ⊢
        rw [toDigits_step hge, List.foldlM_append, hprevious]
        simp only [List.foldlM_cons, List.foldlM_nil, Option.bind_eq_bind, Option.bind_some,
          digitValue_digitChar hmod, if_pos hmod]
        have hsum : n / 10 * 10 + n % 10 = n := by omega
        rw [hsum]
        rfl

/-- The cast reads back the digits of a `long long`. -/
theorem stringCastInteger_toDigits {n : Nat} (hn : n < 2 ^ 63) :
    stringCastInteger (Nat.toDigits 10 n) = some (n : Int) := by
  have hread : readNumber 10 (Nat.toDigits 10 n) = some (n : Int) := by
    rw [readNumber, if_neg Nat.toDigits_ne_nil, ofDigits_toDigits]
    exact if_pos hn
  have hhex : (Nat.toDigits 10 n).take 2 ≠ ['0', 'x'] := by
    intro htake
    have hx : 'x' ∈ Nat.toDigits 10 n := List.mem_of_mem_take (i := 2) (by rw [htake]; simp)
    exact absurd (isDigit_of_mem_toDigits n 'x' hx) (by decide)
  have hoct : ¬ ((Nat.toDigits 10 n).take 1 = ['0'] ∧ Nat.toDigits 10 n ≠ ['0']) := by
    rintro ⟨htake, hne⟩
    rcases Nat.eq_zero_or_pos n with rfl | hpos
    · exact hne (Nat.toDigits_zero 10)
    · obtain ⟨c, text, htext, hc⟩ := toDigits_head hpos
      rw [htext] at htake
      obtain rfl : c = '0' := by simpa using htake
      exact absurd hc (by decide)
  rw [stringCastInteger, if_neg hhex, if_neg hoct, hread]

/-- The digits of an integer are read to their end. -/
theorem integer_matched (n : Nat) {tail : List Char}
    (htail : ∀ c ∈ tail.head?, isIdent2 c = false) (stack : ExprStack) :
    integer (Nat.toDigits 10 n ++ tail) stack = .matched tail stack := by
  have hdigit := not_isDigit_of_not_isIdent2 htail
  rcases Nat.eq_zero_or_pos n with rfl | hpos
  · have hoctal : ∀ c ∈ tail.head?, range '0' '7' c = false := by
      intro c hc
      have hnot := hdigit c hc
      by_contra hcontra
      have hdigit : isDigit c = true :=
        range_mono (by simpa using hcontra) (by decide) (by decide)
      rw [hnot] at hdigit
      exact Bool.noConfusion hdigit
    have hx : char (fun c => c == 'x' || c == 'X') tail stack = .failed stack := by
      cases tail with
      | nil => rfl
      | cons c tail =>
          have hc := htail c rfl
          have hx : c ≠ 'x' := by rintro rfl; revert hc; decide
          have hX : c ≠ 'X' := by rintro rfl; revert hc; decide
          simp [char, hx, hX]
    have hzero : ch '0' ('0' :: tail) stack = .matched tail stack := by simp [ch, char]
    have hstar : star (char (range '0' '7')) ([] ++ tail) stack = .matched tail stack :=
      star_char (by simp) hoctal stack
    rw [List.nil_append] at hstar
    rw [Nat.toDigits_zero]
    simp only [List.cons_append, List.nil_append, integer, sor, ifmust, seq, hzero, hx, hstar]
  · obtain ⟨c, text, htext, hc⟩ := toDigits_head hpos
    have hrest : ∀ d ∈ text, isDigit d = true := fun d hd =>
      isDigit_of_mem_toDigits n d (by rw [htext]; exact List.mem_cons_of_mem c hd)
    have hzero : c ≠ '0' := by rintro rfl; revert hc; decide
    have hch : ch '0' (c :: (text ++ tail)) stack = .failed stack :=
      ch_failed (by simpa using hzero) stack
    have hfirst : char (range '1' '9') (c :: (text ++ tail)) stack =
        .matched (text ++ tail) stack := by
      simp only [char, hc, if_true]
    rw [htext, List.cons_append]
    simp only [integer, sor, ifmust, seq, hch, hfirst, star_char hrest hdigit]

/-! ## Leaves -/

theorem bindString_name (name : Name) : bindString name.1 = .variable name.1 := by
  obtain ⟨c, text, htext, hc⟩ := name.head
  have hbackslash : c ≠ '\\' := by rintro rfl; revert hc; decide
  have hat : c ≠ '@' := by rintro rfl; revert hc; decide
  rw [htext]
  simp [bindString, hbackslash, hat]

theorem toInt32_of_lt {n : Nat} (hn : n < 2 ^ 31) : toInt32 n = n := by
  simp only [toInt32, BitVec.ofInt_natCast, BitVec.toInt_eq_toNat_cond, BitVec.toNat_ofNat]
  have hmod : n % 2 ^ 32 = n := Nat.mod_eq_of_lt (by omega)
  rw [hmod, if_pos (by omega)]

/-- A rule for a leaf reads the leaf with the spaces around it. -/
theorem pushRule_matched {rule : ExprParser} {action : List Char → ExprStack → Option ExprStack}
    {text rest : List Char} {stack stack' : ExprStack} (lead spaces : Spaces)
    (htext : ∀ c ∈ (text ++ (spaces.1 ++ rest)).head?, isSpace c = false)
    (hrule : rule (text ++ (spaces.1 ++ rest)) stack = .matched (spaces.1 ++ rest) stack)
    (haction : action text stack = some stack') (hends : Ends rest) :
    pad (ifapply rule action) (lead.1 ++ (text ++ (spaces.1 ++ rest))) stack =
      .matched rest stack' :=
  pad_matched lead.2 htext (ifapply_matched hrule haction) spaces.2 hends.noSpace

theorem pushRule_failed {rule : ExprParser} {action : List Char → ExprStack → Option ExprStack}
    {input : List Char} {stack : ExprStack} (lead : Spaces)
    (hinput : ∀ c ∈ input.head?, isSpace c = false) (hrule : rule input stack = .failed stack) :
    pad (ifapply rule action) (lead.1 ++ input) stack = .failed stack :=
  pad_failed lead.2 hinput (ifapply_failed hrule)

/-- A rule for a number fails where no number starts. -/
theorem number_failed (input : List Char) (hdigit : ∀ c ∈ input.head?, isDigit c = false)
    (hpoint : input.head? ≠ some '.') (stack : ExprStack) :
    floating input stack = .failed stack ∧ integer input stack = .failed stack := by
  have hfloating : floating ([] ++ input) stack = .failed stack :=
    floating_failed (by simp) hdigit hpoint (fun h => absurd rfl h) stack
  exact ⟨hfloating, integer_failed hdigit stack⟩

theorem boolean_failed {input : List Char} (htrue : ¬ "true".toList <+: input)
    (hfalse : ¬ "false".toList <+: input) (stack : ExprStack) :
    boolean input stack = .failed stack :=
  (sor_failed (string_failed htrue stack)).trans (string_failed hfalse stack)

/-- The leaf is kept as it is. -/
def Leaf.Kept : Leaf → Prop
  | .integer value _ => value < 2 ^ 31
  | .identifier name _ => ¬ "true".toList <+: name.1 ∧ ¬ "false".toList <+: name.1
  | _ => True

def Leaf.IsInteger : Leaf → Prop
  | .integer _ _ => True
  | _ => False

/-- No leaf starts with a space. -/
theorem Leaf.head (leaf : Leaf) (tail : List Char) :
    ∃ c text, leaf.text ++ tail = c :: text ∧
      (isIdent2 c = true ∨ c = '\\') := by
  cases leaf with
  | integer value hvalue =>
      obtain ⟨c, text, htext⟩ := List.exists_cons_of_ne_nil (Nat.toDigits_ne_nil (n := value)
        (b := 10))
      have hc := isDigit_of_mem_toDigits value c (by rw [htext]; exact List.mem_cons_self)
      exact ⟨c, text ++ tail, by rw [Leaf.text, htext]; rfl, .inl (isIdent2_of_isDigit hc)⟩
  | identifier name hname =>
      obtain ⟨c, text, htext, hc⟩ := name.head
      exact ⟨c, text ++ tail, by rw [Leaf.text, htext]; rfl, .inl (isIdent2_of_isIdent1 hc)⟩
  | builtin name => exact ⟨'\\', name.1 ++ tail, rfl, .inr rfl⟩
  | boolean value =>
      cases value with
      | true => exact ⟨'t', "rue".toList ++ tail, rfl, .inl rfl⟩
      | false => exact ⟨'f', "alse".toList ++ tail, rfl, .inl rfl⟩

theorem Leaf.noSpace (leaf : Leaf) (tail : List Char) :
    ∀ c ∈ (leaf.text ++ tail).head?, isSpace c = false := by
  obtain ⟨c, text, htext, hc⟩ := leaf.head tail
  intro d hd
  rw [htext] at hd
  obtain rfl : c = d := by simpa using hd
  rcases hc with hc | rfl
  · by_contra hcontra
    rw [Bool.not_eq_false] at hcontra
    rw [not_isIdent2_of_isSpace hcontra] at hc
    exact Bool.noConfusion hc
  · rfl

/-- Digits are read as the `int` they are converted to. -/
theorem pushPrimitive_integer {value : Nat} (hvalue : value < 2 ^ 63) (lead spaces : Spaces)
    {rest : List Char} (hends : Ends rest) (hpoint : (spaces.1 ++ rest).head? ≠ some '.')
    (stack : ExprStack) :
    pushPrimitive (lead.1 ++ (Nat.toDigits 10 value ++ (spaces.1 ++ rest))) stack =
      .matched rest (createInt value :: stack) := by
  have htail := hends.tail spaces
  have hhead := (Leaf.integer value hvalue).noSpace (spaces.1 ++ rest)
  have hdigits := isDigit_of_mem_toDigits value
  have hdigit := not_isDigit_of_not_isIdent2 htail
  have hfloating := floating_failed hdigits hdigit hpoint (fun _ => htail) stack
  have haction : pushInteger (Nat.toDigits 10 value) stack = some (createInt value :: stack) := by
    rw [pushInteger, stringCastInteger_toDigits hvalue]
  refine (sor_failed (pushRule_failed lead hhead hfloating)).trans (sor_matched ?_)
  exact pushRule_matched lead spaces hhead (integer_matched value htail stack) haction hends

/-- **A leaf is read as its tree.** -/
theorem pushPrimitive_leaf {leaf : Leaf} (hkept : leaf.Kept) (lead spaces : Spaces)
    {rest : List Char} (hends : Ends rest)
    (hpoint : leaf.IsInteger → (spaces.1 ++ rest).head? ≠ some '.') (stack : ExprStack) :
    pushPrimitive (lead.1 ++ (leaf.text ++ (spaces.1 ++ rest))) stack =
      .matched rest (leaf.tree :: stack) := by
  have htail := hends.tail spaces
  have hhead := leaf.noSpace (spaces.1 ++ rest)
  -- the rules before the one for the leaf fail in the order in which they are tried
  cases leaf with
  | integer value hvalue =>
      have htree : createInt value = .intConstant value := by rw [createInt, toInt32_of_lt hkept]
      rw [Leaf.tree, ← htree]
      exact pushPrimitive_integer hvalue lead spaces hends (hpoint trivial) stack
  | identifier name hname =>
      obtain ⟨c, text, htext, hc⟩ := name.head
      have hdigit : ∀ d ∈ (name.1 ++ (spaces.1 ++ rest)).head?, isDigit d = false := by
        intro d hd
        rw [htext] at hd
        obtain rfl : c = d := by simpa using hd
        exact isDigit_of_isIdent1 hc
      have hdot : (name.1 ++ (spaces.1 ++ rest)).head? ≠ some '.' := by
        rw [htext]
        intro heq
        obtain rfl : c = '.' := by simpa using heq
        exact absurd hc (by decide)
      obtain ⟨hfloating, hinteger⟩ := number_failed _ hdigit hdot stack
      have hboolean := boolean_failed (not_start_of_name (List.all_eq_true.mp rfl) hkept.1 htail)
        (not_start_of_name (List.all_eq_true.mp rfl) hkept.2 htail) stack
      have haction : pushString name.1 stack = some (.variable name.1 :: stack) := by
        rw [pushString, bindString_name]
      refine (sor_failed (pushRule_failed lead hhead hfloating)).trans ?_
      refine (sor_failed (pushRule_failed lead hhead hinteger)).trans ?_
      refine (sor_failed (pushRule_failed lead hhead hboolean)).trans (sor_matched ?_)
      exact pushRule_matched lead spaces hhead (identifier_matched name htail stack) haction hends
  | builtin name =>
      obtain ⟨hfloating, hinteger⟩ := number_failed
        ('\\' :: (name.1 ++ (spaces.1 ++ rest))) (by simp; decide) (by simp) stack
      have hboolean : boolean ('\\' :: (name.1 ++ (spaces.1 ++ rest))) stack = .failed stack :=
        boolean_failed (by simp) (by simp) stack
      have hvariable : identifier ('\\' :: (name.1 ++ (spaces.1 ++ rest))) stack =
          .failed stack := identifier_failed (by simp; decide) stack
      have hbuiltin : seq (ch '\\') identifier ('\\' :: (name.1 ++ (spaces.1 ++ rest))) stack =
          .matched (spaces.1 ++ rest) stack := by
        refine (seq_matched ?_).trans (identifier_matched name htail stack)
        simp [ch, char]
      refine (sor_failed (pushRule_failed lead hhead hfloating)).trans ?_
      refine (sor_failed (pushRule_failed lead hhead hinteger)).trans ?_
      refine (sor_failed (pushRule_failed lead hhead hboolean)).trans ?_
      refine (sor_failed (pushRule_failed lead hhead hvariable)).trans (sor_matched ?_)
      exact pushRule_matched lead spaces hhead hbuiltin rfl hends
  | boolean value =>
      have hletter : ∃ c text, (Leaf.boolean value).text ++ (spaces.1 ++ rest) = c :: text ∧
          isDigit c = false ∧ c ≠ '.' := by
        cases value with
        | true => exact ⟨'t', _, rfl, rfl, by decide⟩
        | false => exact ⟨'f', _, rfl, rfl, by decide⟩
      obtain ⟨c, text, htext, hc, hdot⟩ := hletter
      obtain ⟨hfloating, hinteger⟩ := number_failed
        ((Leaf.boolean value).text ++ (spaces.1 ++ rest))
        (by rw [htext]; simpa using hc) (by rw [htext]; simpa using hdot) stack
      have hboolean : Borealis.Anno.boolean ((Leaf.boolean value).text ++ (spaces.1 ++ rest)) stack =
          .matched (spaces.1 ++ rest) stack := by
        cases value with
        | true => exact sor_matched (string_append _ _ stack)
        | false =>
            refine (sor_failed (string_cons_failed (by decide) stack)).trans ?_
            exact string_append "false".toList _ stack
      have haction : pushBool (Leaf.boolean value).text stack =
          some (.boolConstant value :: stack) := by
        cases value <;> rfl
      refine (sor_failed (pushRule_failed lead hhead hfloating)).trans ?_
      refine (sor_failed (pushRule_failed lead hhead hinteger)).trans (sor_matched ?_)
      exact pushRule_matched lead spaces hhead hboolean haction hends

end Borealis.Anno
