import Mathlib.Data.List.Basic

/-!
# Parsing expressions with a state

Parsers of a parsing expression grammar that run actions while they parse.  A parser reads a list
of characters and a state; it matches, and then says what is left of the input, or it fails, or it
stops the whole parse with an error.  A failure gives the input back, but not the state: what an
action did before the failure stays done.

## Strategy

Two rules carry facts through a grammar, and both are closed under every way of building parsers.
`Preserves` is for facts about the state that every action keeps, whether the parser matches or
fails.  `Scans` is for facts about the text: an automaton reads what a parser consumed.  It looks
only at parsers that match, so it says nothing about the attempts that failed on the way.
-/

namespace Peg

/-- What a parser answers. -/
inductive Result (σ : Type)
  | matched (rest : List Char) (state : σ)
  | failed (state : σ)
  | error
deriving DecidableEq

/-- A parser with state `σ`. -/
abbrev Parser (σ : Type) :=
  List Char → σ → Result σ

variable {σ : Type}

/-! ## Building parsers -/

/-- The parser that always fails. -/
def failure (_ : List Char) (state : σ) : Result σ :=
  .failed state

/-- One character of a class. -/
def char (accepts : Char → Bool) (input : List Char) (state : σ) : Result σ :=
  match input with
  | c :: rest => if accepts c then .matched rest state else .failed state
  | [] => .failed state

/-- The characters of a text, in order. -/
def string (text : List Char) (input : List Char) (state : σ) : Result σ :=
  if text <+: input then .matched (input.drop text.length) state else .failed state

/-- One parser after another. -/
def seq (first second : Parser σ) (input : List Char) (state : σ) : Result σ :=
  match first input state with
  | .matched rest state => second rest state
  | .failed state => .failed state
  | .error => .error

/-- Ordered choice. -/
def sor (first second : Parser σ) (input : List Char) (state : σ) : Result σ :=
  match first input state with
  | .matched rest state => .matched rest state
  | .failed state => second input state
  | .error => .error

/-- Ordered choice of several parsers. -/
def choice : List (Parser σ) → Parser σ
  | [] => failure
  | [parser] => parser
  | parser :: parsers => sor parser (choice parsers)

attribute [local simp] choice

/-- The second parser must match once the first has. -/
def ifmust (condition rule : Parser σ) (input : List Char) (state : σ) : Result σ :=
  match condition input state with
  | .matched rest state =>
      match rule rest state with
      | .matched rest state => .matched rest state
      | .failed _ => .error
      | .error => .error
  | .failed state => .failed state
  | .error => .error

/-- An action, run with the text the parser consumed; an action may stop the parse. -/
def ifapply (parser : Parser σ) (action : List Char → σ → Option σ) (input : List Char)
    (state : σ) : Result σ :=
  match parser input state with
  | .matched rest state =>
      match action (input.take (input.length - rest.length)) state with
      | some state => .matched rest state
      | none => .error
  | .failed state => .failed state
  | .error => .error

/-- At most `fuel` repetitions; `error` stands for a loop that does not end. -/
def repeated (parser : Parser σ) : Nat → List Char → σ → Result σ
  | 0, _, _ => .error
  | fuel + 1, input, state =>
      if input = [] then .matched input state
      else
        match parser input state with
        | .matched rest state => repeated parser fuel rest state
        | .failed state => .matched input state
        | .error => .error

attribute [local simp] repeated

/-- As many repetitions as possible. -/
def star (parser : Parser σ) (input : List Char) (state : σ) : Result σ :=
  repeated parser (input.length + 1) input state

/-- At least one repetition. -/
def plus (parser : Parser σ) : Parser σ :=
  seq parser (star parser)

/-- The parser or nothing. -/
def opt (parser : Parser σ) (input : List Char) (state : σ) : Result σ :=
  match parser input state with
  | .matched rest state => .matched rest state
  | .failed state => .matched input state
  | .error => .error

/-- The end of the input. -/
def eof (input : List Char) (state : σ) : Result σ :=
  if input = [] then .matched input state else .failed state

/-- The characters from one to another. -/
def range (first last c : Char) : Bool :=
  Nat.ble first.toNat c.toNat && Nat.ble c.toNat last.toNat

/-- `space`. -/
def isSpace (c : Char) : Bool :=
  c == ' ' || c == '\n' || c == '\r' || c == '\t' || c == '\x0b' || c == '\x0c'

/-- The parser with spaces around it. -/
def pad (parser : Parser σ) : Parser σ :=
  seq (star (char isSpace)) (seq parser (star (char isSpace)))

theorem range_iff {first last c : Char} :
    range first last c = true ↔ first.toNat ≤ c.toNat ∧ c.toNat ≤ last.toNat := by
  rw [range, Bool.and_eq_true, Nat.ble_eq, Nat.ble_eq]

/-- A wider range holds at least as much. -/
theorem range_mono {first last first' last' c : Char} (hc : range first last c = true)
    (hfirst : first'.toNat ≤ first.toNat) (hlast : last.toNat ≤ last'.toNat) :
    range first' last' c = true := by
  rw [range_iff] at hc ⊢
  omega

/-! ## Progress -/

/-- A match gives no character back. -/
def NonGrowing (parser : Parser σ) : Prop :=
  ∀ input state rest state', parser input state = .matched rest state' →
    rest.length ≤ input.length

/-- A match consumes something. -/
def Progresses (parser : Parser σ) : Prop :=
  ∀ input state rest state', parser input state = .matched rest state' →
    rest.length < input.length

section

variable {parser first second : Parser σ}

theorem Progresses.nonGrowing (hparser : Progresses parser) : NonGrowing parser :=
  fun input state rest state' hmatch => Nat.le_of_lt (hparser input state rest state' hmatch)

/-- A sequence that matches, taken apart. -/
theorem seq_inv {input rest : List Char} {state state' : σ}
    (hmatch : seq first second input state = .matched rest state') :
    ∃ middle state₁, first input state = .matched middle state₁ ∧
      second middle state₁ = .matched rest state' := by
  simp only [seq] at hmatch
  split at hmatch
  · exact ⟨_, _, ‹_›, hmatch⟩
  · simp at hmatch
  · simp at hmatch

/-- A choice that matches, taken apart. -/
theorem sor_inv {input rest : List Char} {state state' : σ}
    (hmatch : sor first second input state = .matched rest state') :
    first input state = .matched rest state' ∨
      ∃ state₁, first input state = .failed state₁ ∧
        second input state₁ = .matched rest state' := by
  simp only [sor] at hmatch
  split at hmatch
  · rw [← hmatch]
    exact .inl ‹_›
  · exact .inr ⟨_, ‹_›, hmatch⟩
  · simp at hmatch

/-- A conditional sequence that matches is a sequence that matches. -/
theorem ifmust_inv {input rest : List Char} {state state' : σ}
    (hmatch : ifmust first second input state = .matched rest state') :
    seq first second input state = .matched rest state' := by
  simp only [ifmust] at hmatch
  simp only [seq]
  split at hmatch
  · split at hmatch
    · rename_i hsecond
      exact hsecond.trans hmatch
    · simp at hmatch
    · simp at hmatch
  · simp at hmatch
  · simp at hmatch

/-- An action that ran, taken apart. -/
theorem ifapply_inv {action : List Char → σ → Option σ} {input rest : List Char}
    {state state' : σ} (hmatch : ifapply parser action input state = .matched rest state') :
    ∃ state₁, parser input state = .matched rest state₁ ∧
      action (input.take (input.length - rest.length)) state₁ = some state' := by
  simp only [ifapply] at hmatch
  split at hmatch
  · rename_i middle state₁ hparser
    split at hmatch
    · obtain ⟨rfl, rfl⟩ : middle = rest ∧ _ = state' := by simpa using hmatch
      exact ⟨state₁, hparser, ‹_›⟩
    · simp at hmatch
  · simp at hmatch
  · simp at hmatch

theorem char_progresses (accepts : Char → Bool) : Progresses (σ := σ) (char accepts) := by
  intro input state rest state' hmatch
  cases input with
  | nil => simp [char] at hmatch
  | cons c input =>
      simp only [char] at hmatch
      split at hmatch
      · obtain ⟨rfl, -⟩ : input = rest ∧ state = state' := by simpa using hmatch
        exact Nat.lt_succ_self _
      · simp at hmatch

theorem string_progresses {text : List Char} (htext : text ≠ []) :
    Progresses (σ := σ) (string text) := by
  intro input state rest state' hmatch
  simp only [string] at hmatch
  split at hmatch
  · rename_i hle
    obtain ⟨rfl, -⟩ : input.drop text.length = rest ∧ state = state' := by simpa using hmatch
    have hpos : 0 < text.length := List.length_pos_iff.mpr htext
    have hle := hle.length_le
    simp only [List.length_drop]
    omega
  · simp at hmatch

theorem NonGrowing.seq (hfirst : NonGrowing first) (hsecond : NonGrowing second) :
    NonGrowing (seq first second) := by
  intro input state rest state' hmatch
  obtain ⟨middle, state₁, h₁, h₂⟩ := seq_inv hmatch
  exact Nat.le_trans (hsecond _ _ _ _ h₂) (hfirst _ _ _ _ h₁)

theorem Progresses.seq (hfirst : Progresses first) (hsecond : NonGrowing second) :
    Progresses (seq first second) := by
  intro input state rest state' hmatch
  obtain ⟨middle, state₁, h₁, h₂⟩ := seq_inv hmatch
  exact Nat.lt_of_le_of_lt (hsecond _ _ _ _ h₂) (hfirst _ _ _ _ h₁)

theorem NonGrowing.seq_progresses (hfirst : NonGrowing first) (hsecond : Progresses second) :
    Progresses (Peg.seq first second) := by
  intro input state rest state' hmatch
  obtain ⟨middle, state₁, h₁, h₂⟩ := seq_inv hmatch
  exact Nat.lt_of_lt_of_le (hsecond _ _ _ _ h₂) (hfirst _ _ _ _ h₁)

theorem Progresses.sor (hfirst : Progresses first) (hsecond : Progresses second) :
    Progresses (sor first second) := by
  intro input state rest state' hmatch
  rcases sor_inv hmatch with h | ⟨state₁, -, h⟩
  · exact hfirst _ _ _ _ h
  · exact hsecond _ _ _ _ h

/-- **What failure has, and a choice of two parsers that have it**, a choice of several has. -/
theorem choice_induction {motive : Parser σ → Prop} (hfailure : motive failure)
    (hsor : ∀ {first second}, motive first → motive second → motive (sor first second))
    {parsers : List (Parser σ)} (hparsers : ∀ parser ∈ parsers, motive parser) :
    motive (choice parsers) := by
  induction parsers with
  | nil => exact hfailure
  | cons parser parsers ih =>
      have hrest := ih fun q hq => hparsers q (List.mem_cons_of_mem parser hq)
      have hparser := hparsers parser List.mem_cons_self
      cases parsers with
      | nil => exact hparser
      | cons q qs => exact hsor hparser hrest

theorem Progresses.choice {parsers : List (Parser σ)}
    (hparsers : ∀ parser ∈ parsers, Progresses parser) : Progresses (choice parsers) := by
  refine choice_induction ?_ Progresses.sor hparsers
  intro input state rest state' hmatch
  simp [failure] at hmatch

theorem Progresses.ifmust (hfirst : Progresses first) (hsecond : NonGrowing second) :
    Progresses (ifmust first second) :=
  fun _ _ _ _ hmatch => hfirst.seq hsecond _ _ _ _ (ifmust_inv hmatch)

theorem NonGrowing.ifapply {action : List Char → σ → Option σ} (hparser : NonGrowing parser) :
    NonGrowing (ifapply parser action) := by
  intro input state rest state' hmatch
  obtain ⟨state₁, h, -⟩ := ifapply_inv hmatch
  exact hparser _ _ _ _ h

theorem Progresses.ifapply {action : List Char → σ → Option σ} (hparser : Progresses parser) :
    Progresses (ifapply parser action) := by
  intro input state rest state' hmatch
  obtain ⟨state₁, h, -⟩ := ifapply_inv hmatch
  exact hparser _ _ _ _ h

theorem NonGrowing.repeated (hparser : NonGrowing parser) (fuel : Nat) :
    NonGrowing (repeated parser fuel) := by
  induction fuel with
  | zero =>
      intro input state rest state' hmatch
      simp [Peg.repeated] at hmatch
  | succ fuel ih =>
      intro input state rest state' hmatch
      simp only [Peg.repeated] at hmatch
      split at hmatch
      · obtain ⟨rfl, -⟩ : input = rest ∧ state = state' := by simpa using hmatch
        exact Nat.le_refl _
      · split at hmatch
        · exact Nat.le_trans (ih _ _ _ _ hmatch) (hparser _ _ _ _ ‹_›)
        · obtain ⟨rfl, -⟩ : input = rest ∧ _ = state' := by simpa using hmatch
          exact Nat.le_refl _
        · simp at hmatch

theorem NonGrowing.star (hparser : NonGrowing parser) : NonGrowing (star parser) :=
  fun input state => hparser.repeated _ input state

theorem NonGrowing.opt (hparser : NonGrowing parser) : NonGrowing (opt parser) := by
  intro input state rest state' hmatch
  simp only [Peg.opt] at hmatch
  split at hmatch
  · rename_i hparsed
    exact hparser _ _ _ _ (hparsed.trans hmatch)
  · obtain ⟨rfl, -⟩ : input = rest ∧ _ = state' := by simpa using hmatch
    exact Nat.le_refl _
  · simp at hmatch

theorem Progresses.plus (hparser : Progresses parser) : Progresses (plus parser) :=
  hparser.seq hparser.nonGrowing.star

theorem Progresses.pad (hparser : Progresses parser) : Progresses (pad parser) :=
  ((char_progresses isSpace).nonGrowing.star).seq_progresses
    (hparser.seq (char_progresses isSpace).nonGrowing.star)

end

/-! ## Repetition -/

section

variable {parser : Parser σ}

/-- Fuel beyond the length of the input changes nothing. -/
theorem repeated_eq (hprogress : Progresses parser) {fuel : Nat} {input : List Char}
    (hfuel : input.length < fuel) (state : σ) :
    repeated parser fuel input state = repeated parser (input.length + 1) input state := by
  induction fuel using Nat.strongRecOn generalizing input state with
  | ind fuel ih =>
      cases fuel with
      | zero => exact absurd hfuel (Nat.not_lt_zero _)
      | succ fuel =>
          simp only [repeated]
          split
          · rfl
          · cases hmatch : parser input state with
            | failed state' => rfl
            | error => rfl
            | matched rest state' =>
                have hshorter := hprogress input state rest state' hmatch
                simp only
                rw [ih fuel (Nat.lt_succ_self _) (by omega)]
                rcases Nat.lt_or_ge input.length fuel with hlt | hge
                · exact (ih input.length (by omega) hshorter state').symm
                · have heq : input.length = fuel := by omega
                  rw [heq, ih fuel (Nat.lt_succ_self _) (by omega)]

/-- A repetition, one round unfolded. -/
theorem star_eq (hprogress : Progresses parser) (input : List Char) (state : σ) :
    star parser input state =
      if input = [] then .matched input state
      else
        match parser input state with
        | .matched rest state => star parser rest state
        | .failed state => .matched input state
        | .error => .error := by
  conv_lhs => rw [star, repeated]
  split
  · rfl
  · cases hmatch : parser input state with
    | failed state' => rfl
    | error => rfl
    | matched rest state' =>
        exact repeated_eq hprogress (hprogress input state rest state' hmatch) state'

/-- A repetition goes on after a match. -/
theorem star_of_matched (hprogress : Progresses parser) {input rest : List Char}
    {state state' : σ} (hmatch : parser input state = .matched rest state') :
    star parser input state = star parser rest state' := by
  have hlength := hprogress input state rest state' hmatch
  have hne : input ≠ [] := by
    rintro rfl
    simp at hlength
  rw [star_eq hprogress, if_neg hne, hmatch]

/-- A repetition ends where its parser fails. -/
theorem star_of_failed {input : List Char} {state : σ}
    (hfail : parser input state = .failed state) :
    star parser input state = .matched input state := by
  rw [star, repeated, hfail]
  split <;> rfl

theorem star_nil (state : σ) : star parser [] state = .matched [] state := by
  simp [star, repeated]

end

/-! ## What a parser does on a given text -/

/-- A repeated character stops where the class ends. -/
theorem star_char {accepts : Char → Bool} {text rest : List Char}
    (haccepts : ∀ c ∈ text, accepts c = true) (hstop : ∀ c ∈ rest.head?, accepts c = false)
    (state : σ) : star (char accepts) (text ++ rest) state = .matched rest state := by
  have hprogress : Progresses (σ := σ) (char accepts) := char_progresses accepts
  induction text with
  | nil =>
      cases rest with
      | nil => exact star_nil state
      | cons c rest =>
          have hc : accepts c = false := hstop c rfl
          exact star_of_failed (by simp [char, hc])
  | cons c text ih =>
      have hc : accepts c = true := haccepts c List.mem_cons_self
      have hfirst : char accepts (c :: (text ++ rest)) state = .matched (text ++ rest) state := by
        simp [char, hc]
      rw [List.cons_append, star_of_matched hprogress hfirst]
      exact ih fun d hd => haccepts d (List.mem_cons_of_mem c hd)

theorem star_char_eq (accepts : Char → Bool) (input : List Char) (state : σ) :
    star (char accepts) input state = .matched (input.dropWhile accepts) state := by
  have hsplit : input.takeWhile accepts ++ input.dropWhile accepts = input :=
    List.takeWhile_append_dropWhile
  have hhead : ∀ c ∈ (input.dropWhile accepts).head?, accepts c = false := by
    intro c hc
    have h := List.head?_dropWhile_not accepts input
    rw [Option.mem_def.mp hc] at h
    simpa using h
  have htaken : ∀ c ∈ input.takeWhile accepts, accepts c = true :=
    List.all_eq_true.mp List.all_takeWhile
  have hstar := star_char htaken hhead state
  rwa [hsplit] at hstar

theorem char_inv {accepts : Char → Bool} {input rest : List Char} {state state' : σ}
    (hmatch : char accepts input state = .matched rest state') :
    ∃ c, input = c :: rest ∧ accepts c = true ∧ state = state' := by
  cases input with
  | nil => simp [char] at hmatch
  | cons c input =>
      simp only [char] at hmatch
      split at hmatch
      · obtain ⟨rfl, rfl⟩ : input = rest ∧ state = state' := by simpa using hmatch
        exact ⟨c, rfl, ‹_›, rfl⟩
      · simp at hmatch

/-- Spaces around a parser are dropped, whatever it does. -/
theorem pad_inv {parser : Parser σ} {input rest : List Char} {state state' : σ}
    (hmatch : pad parser input state = .matched rest state') :
    ∃ middle, parser (input.dropWhile isSpace) state = .matched middle state' ∧
      rest = middle.dropWhile isSpace := by
  obtain ⟨input', state₁, hspaces, hrest⟩ := seq_inv hmatch
  rw [star_char_eq] at hspaces
  obtain ⟨rfl, rfl⟩ : input.dropWhile isSpace = input' ∧ state = state₁ := by simpa using hspaces
  obtain ⟨middle, state₂, hparser, hspaces⟩ := seq_inv hrest
  rw [star_char_eq] at hspaces
  obtain ⟨rfl, rfl⟩ : middle.dropWhile isSpace = rest ∧ state₂ = state' := by simpa using hspaces
  exact ⟨middle, hparser, rfl⟩

theorem pad_failed_inv {parser : Parser σ} {input : List Char} {state state' : σ}
    (hfail : pad parser input state = .failed state') :
    parser (input.dropWhile isSpace) state = .failed state' := by
  simp only [pad, seq, star_char_eq] at hfail
  split at hfail
  · simp at hfail
  · rename_i hparser
    rw [hparser, hfail]
  · simp at hfail

theorem string_append (text rest : List Char) (state : σ) :
    string text (text ++ rest) state = .matched rest state := by
  simp [string]

theorem string_failed {text input : List Char} (htext : ¬ text <+: input) (state : σ) :
    string text input state = .failed state := by
  simp [string, htext]

theorem string_cons_failed {c d : Char} {text input : List Char} (hne : c ≠ d) (state : σ) :
    string (c :: text) (d :: input) state = .failed state :=
  string_failed (fun hle => hne (List.cons_prefix_cons.mp hle).1) state

/-- A text at the start of a text in two parts lies in the first part or runs over its end. -/
theorem start_append_cases {text first second : List Char} (hle : text <+: first ++ second) :
    text <+: first ∨ ∃ c, first ++ [c] <+: text ∧ second.head? = some c := by
  induction first generalizing text with
  | nil =>
      cases text with
      | nil => exact .inl List.nil_prefix
      | cons c text =>
          obtain ⟨rest, hrest⟩ := hle
          refine .inr ⟨c, ⟨text, rfl⟩, ?_⟩
          rw [List.nil_append] at hrest
          rw [← hrest]
          rfl
  | cons d first ih =>
      cases text with
      | nil => exact .inl List.nil_prefix
      | cons c text =>
          rw [List.cons_append, List.cons_prefix_cons] at hle
          obtain ⟨rfl, hle⟩ := hle
          rcases ih hle with h | ⟨e, he, hhead⟩
          · exact .inl (List.cons_prefix_cons.mpr ⟨rfl, h⟩)
          · exact .inr ⟨e, List.cons_prefix_cons.mpr ⟨rfl, he⟩, hhead⟩

theorem seq_matched {first second : Parser σ} {input rest : List Char} {state state' : σ}
    (hfirst : first input state = .matched rest state') :
    seq first second input state = second rest state' := by
  simp only [seq, hfirst]

theorem seq_failed {first second : Parser σ} {input : List Char} {state state' : σ}
    (hfirst : first input state = .failed state') :
    seq first second input state = .failed state' := by
  simp only [seq, hfirst]

theorem sor_matched {first second : Parser σ} {input rest : List Char} {state state' : σ}
    (hfirst : first input state = .matched rest state') :
    sor first second input state = .matched rest state' := by
  simp only [sor, hfirst]

theorem sor_failed {first second : Parser σ} {input : List Char} {state state' : σ}
    (hfirst : first input state = .failed state') :
    sor first second input state = second input state' := by
  simp only [sor, hfirst]

theorem ifmust_matched {condition rule : Parser σ} {input middle rest : List Char}
    {state state₁ state' : σ} (hcondition : condition input state = .matched middle state₁)
    (hrule : rule middle state₁ = .matched rest state') :
    ifmust condition rule input state = .matched rest state' := by
  simp only [ifmust, hcondition, hrule]

theorem ifmust_failed {condition rule : Parser σ} {input : List Char} {state state' : σ}
    (hcondition : condition input state = .failed state') :
    ifmust condition rule input state = .failed state' := by
  simp only [ifmust, hcondition]

theorem choice_cons_failed {parser q : Parser σ} {parsers : List (Parser σ)} {input : List Char}
    {state state' : σ} (hfail : parser input state = .failed state') :
    choice (parser :: q :: parsers) input state = choice (q :: parsers) input state' :=
  sor_failed hfail

theorem choice_cons_matched {parser : Parser σ} {parsers : List (Parser σ)}
    {input rest : List Char} {state state' : σ}
    (hmatch : parser input state = .matched rest state') :
    choice (parser :: parsers) input state = .matched rest state' := by
  cases parsers with
  | nil => exact hmatch
  | cons q parsers => exact sor_matched hmatch

/-- A choice fails where every parser fails. -/
theorem choice_failed {parsers : List (Parser σ)} {input : List Char} {state : σ}
    (hfail : ∀ parser ∈ parsers, parser input state = .failed state) :
    choice parsers input state = .failed state := by
  induction parsers with
  | nil => rfl
  | cons parser parsers ih =>
      have hparser := hfail parser List.mem_cons_self
      have hrest := ih fun q hq => hfail q (List.mem_cons_of_mem parser hq)
      cases parsers with
      | nil => exact hparser
      | cons q parsers => exact (choice_cons_failed hparser).trans hrest

/-- A choice over a list of items, where the parsers before that of `x` fail. -/
theorem choice_map_matched {ι : Type} [DecidableEq ι] {parser : ι → Parser σ} {items : List ι}
    {x : ι} {input rest : List Char} {state state' : σ} (hx : x ∈ items)
    (hbefore : ∀ y ∈ items.takeWhile (fun y => decide (y ≠ x)),
      parser y input state = .failed state)
    (hmatch : parser x input state = .matched rest state') :
    choice (items.map parser) input state = .matched rest state' := by
  induction items with
  | nil => exact absurd hx List.not_mem_nil
  | cons y items ih =>
      rcases eq_or_ne y x with rfl | hne
      · exact choice_cons_matched hmatch
      · have htake : (y :: items).takeWhile (fun y => decide (y ≠ x)) =
            y :: items.takeWhile (fun y => decide (y ≠ x)) := by
          simp [hne]
        rw [htake] at hbefore
        have hitems : x ∈ items := (List.mem_cons.mp hx).resolve_left hne.symm
        have hrest := ih hitems fun z hz => hbefore z (List.mem_cons_of_mem y hz)
        cases items with
        | nil => exact absurd hitems List.not_mem_nil
        | cons z items => exact (choice_cons_failed (hbefore y List.mem_cons_self)).trans hrest

/-- An action sees the text its parser read. -/
theorem ifapply_matched {parser : Parser σ} {action : List Char → σ → Option σ}
    {text rest : List Char} {state state₁ state' : σ}
    (hparser : parser (text ++ rest) state = .matched rest state₁)
    (haction : action text state₁ = some state') :
    ifapply parser action (text ++ rest) state = .matched rest state' := by
  have htake : (text ++ rest).take ((text ++ rest).length - rest.length) = text := by simp
  simp only [ifapply, hparser, htake, haction]

/-- An action that does the same whatever the text. -/
theorem ifapply_matched_of_forall {parser : Parser σ} {action : List Char → σ → Option σ}
    {input rest : List Char} {state state₁ state' : σ}
    (hparser : parser input state = .matched rest state₁)
    (haction : ∀ text, action text state₁ = some state') :
    ifapply parser action input state = .matched rest state' := by
  simp only [ifapply, hparser, haction]

theorem ifapply_failed {parser : Parser σ} {action : List Char → σ → Option σ}
    {input : List Char} {state state' : σ} (hparser : parser input state = .failed state') :
    ifapply parser action input state = .failed state' := by
  simp only [ifapply, hparser]

/-- Spaces around a text that its parser reads. -/
theorem pad_matched {parser : Parser σ} {before input after rest : List Char} {state state' : σ}
    (hbefore : ∀ c ∈ before, isSpace c = true) (hinput : ∀ c ∈ input.head?, isSpace c = false)
    (hmatch : parser input state = .matched (after ++ rest) state')
    (hafter : ∀ c ∈ after, isSpace c = true) (hrest : ∀ c ∈ rest.head?, isSpace c = false) :
    pad parser (before ++ input) state = .matched rest state' := by
  simp only [pad, seq, star_char hbefore hinput, hmatch, star_char hafter hrest]

/-- Spaces before a text that its parser does not read. -/
theorem pad_failed {parser : Parser σ} {before input : List Char} {state state' : σ}
    (hbefore : ∀ c ∈ before, isSpace c = true) (hinput : ∀ c ∈ input.head?, isSpace c = false)
    (hfail : parser input state = .failed state') :
    pad parser (before ++ input) state = .failed state' := by
  simp only [pad, seq, star_char hbefore hinput, hfail]

/-! ## Facts about the state -/

/-- A fact about the state a parser leaves, whether it matched or failed. -/
def Result.All (fact : σ → Prop) : Result σ → Prop
  | .matched _ state => fact state
  | .failed state => fact state
  | .error => True

/-- A fact about the state that parsing keeps. -/
def Preserves (fact : σ → Prop) (parser : Parser σ) : Prop :=
  ∀ input state, fact state → (parser input state).All fact

section

variable {fact : σ → Prop} {parser first second : Parser σ}

theorem Preserves.matched (hparser : Preserves fact parser) {input rest : List Char}
    {state state' : σ} (hmatch : parser input state = .matched rest state')
    (hstate : fact state) : fact state' := by
  have h := hparser input state hstate
  rwa [hmatch] at h

theorem Preserves.char (accepts : Char → Bool) : Preserves fact (char accepts) := by
  intro input state hstate
  cases input with
  | nil => exact hstate
  | cons c input =>
      simp only [Peg.char]
      split <;> exact hstate

theorem Preserves.string (text : List Char) : Preserves fact (string text) := by
  intro input state hstate
  simp only [Peg.string]
  split <;> exact hstate

theorem Preserves.seq (hfirst : Preserves fact first) (hsecond : Preserves fact second) :
    Preserves fact (seq first second) := by
  intro input state hstate
  have h := hfirst input state hstate
  simp only [Peg.seq]
  split
  · rename_i hmatch
    rw [hmatch] at h
    exact hsecond _ _ h
  · rename_i hfail
    rwa [hfail] at h
  · trivial

theorem Preserves.sor (hfirst : Preserves fact first) (hsecond : Preserves fact second) :
    Preserves fact (sor first second) := by
  intro input state hstate
  have h := hfirst input state hstate
  simp only [Peg.sor]
  split
  · rename_i hmatch
    rwa [hmatch] at h
  · rename_i hfail
    rw [hfail] at h
    exact hsecond _ _ h
  · trivial

theorem Preserves.choice {parsers : List (Parser σ)}
    (hparsers : ∀ parser ∈ parsers, Preserves fact parser) :
    Preserves fact (choice parsers) :=
  choice_induction (fun _ _ hstate => hstate) Preserves.sor hparsers

theorem Preserves.ifmust (hfirst : Preserves fact first) (hsecond : Preserves fact second) :
    Preserves fact (ifmust first second) := by
  intro input state hstate
  have h := hfirst input state hstate
  simp only [Peg.ifmust]
  split
  · rename_i middle state₁ hmatch
    rw [hmatch] at h
    have h' := hsecond middle state₁ h
    split
    · rename_i hmatch'
      rwa [hmatch'] at h'
    · trivial
    · trivial
  · rename_i hfail
    rwa [hfail] at h
  · trivial

theorem Preserves.ifapply {action : List Char → σ → Option σ} (hparser : Preserves fact parser)
    (haction : ∀ text state state', action text state = some state' → fact state → fact state') :
    Preserves fact (ifapply parser action) := by
  intro input state hstate
  have h := hparser input state hstate
  simp only [Peg.ifapply]
  split
  · rename_i hmatch
    rw [hmatch] at h
    split
    · exact haction _ _ _ ‹_› h
    · trivial
  · rename_i hfail
    rwa [hfail] at h
  · trivial

theorem Preserves.repeated (hparser : Preserves fact parser) (fuel : Nat) :
    Preserves fact (repeated parser fuel) := by
  induction fuel with
  | zero => exact fun _ _ _ => trivial
  | succ fuel ih =>
      intro input state hstate
      have h := hparser input state hstate
      simp only [Peg.repeated]
      split
      · exact hstate
      · split
        · rename_i hmatch
          rw [hmatch] at h
          exact ih _ _ h
        · rename_i hfail
          rwa [hfail] at h
        · trivial

theorem Preserves.star (hparser : Preserves fact parser) : Preserves fact (star parser) :=
  fun input state => hparser.repeated _ input state

theorem Preserves.opt (hparser : Preserves fact parser) : Preserves fact (opt parser) := by
  intro input state hstate
  have h := hparser input state hstate
  simp only [Peg.opt]
  split
  · rename_i hmatch
    rwa [hmatch] at h
  · rename_i hfail
    rwa [hfail] at h
  · trivial

theorem Preserves.pad (hparser : Preserves fact parser) : Preserves fact (pad parser) :=
  ((Preserves.char isSpace).star).seq (hparser.seq (Preserves.char isSpace).star)

end

/-! ## Facts about the text -/

section

variable {α : Type} (step : α → Char → Option α)

/-- The automaton reads the text to its end. -/
def accepts : α → List Char → Bool
  | _, [] => true
  | q, c :: rest =>
      match step q c with
      | some q => accepts q rest
      | none => false

/-- A parser that matches, and leaves no spoiled state, takes the automaton from where `before`
holds to where `after` does. -/
def Scans (spoiled : σ → Prop) (before after : α → List Char → Prop) (parser : Parser σ) : Prop :=
  ∀ input state rest state', parser input state = .matched rest state' → ¬ spoiled state' →
    ∀ q, before q input → ∃ q', after q' rest ∧ accepts step q input = accepts step q' rest

variable {step} {spoiled : σ → Prop} {before middle after : α → List Char → Prop}
  {parser first second : Parser σ}

theorem Scans.weaken {before' after' : α → List Char → Prop}
    (hparser : Scans step spoiled before after parser)
    (hbefore : ∀ q input, before' q input → before q input)
    (hafter : ∀ q input, after q input → after' q input) :
    Scans step spoiled before' after' parser := by
  intro input state rest state' hmatch hclean q hq
  obtain ⟨q', hq', heq⟩ := hparser input state rest state' hmatch hclean q (hbefore q input hq)
  exact ⟨q', hafter q' rest hq', heq⟩

theorem Scans.char {accepted : Char → Bool}
    (hstep : ∀ q c rest, before q (c :: rest) → accepted c = true →
      ∃ q', step q c = some q' ∧ after q' rest) :
    Scans step spoiled before after (char accepted) := by
  intro input state rest state' hmatch _ q hq
  cases input with
  | nil => simp [Peg.char] at hmatch
  | cons c input =>
      simp only [Peg.char] at hmatch
      split at hmatch
      · rename_i hc
        obtain ⟨rfl, -⟩ : input = rest ∧ state = state' := by simpa using hmatch
        obtain ⟨q', hq', hafter⟩ := hstep q c input hq hc
        exact ⟨q', hafter, by simp [accepts, hq']⟩
      · simp at hmatch

/-- The states the automaton goes through on a text. -/
def run (step : α → Char → Option α) (q : α) (text : List Char) : Option α :=
  text.foldlM step q

theorem accepts_append {q q' : α} {text : List Char} (hrun : run step q text = some q')
    (rest : List Char) : accepts step q (text ++ rest) = accepts step q' rest := by
  induction text generalizing q with
  | nil =>
      obtain rfl : q = q' := by simpa [run] using hrun
      rfl
  | cons c text ih =>
      cases hstep : step q c with
      | none => simp [run, hstep] at hrun
      | some q₁ =>
          have hrun' : run step q₁ text = some q' := by simpa [run, hstep] using hrun
          simp only [List.cons_append, accepts, hstep, ih hrun']

theorem Scans.string {text : List Char}
    (hrun : ∀ q rest, before q (text ++ rest) → ∃ q', run step q text = some q' ∧ after q' rest) :
    Scans step spoiled before after (string text) := by
  intro input state rest state' hmatch _ q hq
  simp only [Peg.string] at hmatch
  split at hmatch
  · rename_i hle
    obtain ⟨rest', rfl⟩ := hle
    obtain ⟨rfl, -⟩ : rest' = rest ∧ state = state' := by simpa using hmatch
    obtain ⟨q', hq', hafter⟩ := hrun q rest' hq
    exact ⟨q', hafter, accepts_append hq' rest'⟩
  · simp at hmatch

/-- The second parser must not clean a state that the first one spoiled. -/
theorem Scans.seq (hfirst : Scans step spoiled before middle first)
    (hsecond : Scans step spoiled middle after second) (hkeeps : Preserves spoiled second) :
    Scans step spoiled before after (seq first second) := by
  intro input state rest state' hmatch hclean q hq
  obtain ⟨between, state₁, h₁, h₂⟩ := seq_inv hmatch
  have hclean₁ : ¬ spoiled state₁ := fun hspoiled => hclean (hkeeps.matched h₂ hspoiled)
  obtain ⟨q₁, hq₁, heq₁⟩ := hfirst input state between state₁ h₁ hclean₁ q hq
  obtain ⟨q₂, hq₂, heq₂⟩ := hsecond between state₁ rest state' h₂ hclean q₁ hq₁
  exact ⟨q₂, hq₂, heq₁.trans heq₂⟩

theorem Scans.ifmust (hfirst : Scans step spoiled before middle first)
    (hsecond : Scans step spoiled middle after second) (hkeeps : Preserves spoiled second) :
    Scans step spoiled before after (ifmust first second) :=
  fun input state rest state' hmatch =>
    hfirst.seq hsecond hkeeps input state rest state' (ifmust_inv hmatch)

/-- The second parser of a choice may use that the first one failed. -/
theorem Scans.sor_of_failed (hfirst : Scans step spoiled before after first)
    (hsecond : Scans step spoiled
      (fun q input => before q input ∧ ∃ state state', first input state = .failed state')
      after second) :
    Scans step spoiled before after (sor first second) := by
  intro input state rest state' hmatch hclean q hq
  rcases sor_inv hmatch with h | ⟨state₁, hfail, h⟩
  · exact hfirst input state rest state' h hclean q hq
  · exact hsecond input state₁ rest state' h hclean q ⟨hq, state, state₁, hfail⟩

theorem Scans.sor (hfirst : Scans step spoiled before after first)
    (hsecond : Scans step spoiled before after second) :
    Scans step spoiled before after (sor first second) :=
  hfirst.sor_of_failed (hsecond.weaken (fun _ _ h => h.1) fun _ _ h => h)

theorem Scans.choice {parsers : List (Parser σ)}
    (hparsers : ∀ parser ∈ parsers, Scans step spoiled before after parser) :
    Scans step spoiled before after (choice parsers) := by
  refine choice_induction ?_ Scans.sor hparsers
  intro input state rest state' hmatch
  simp [failure] at hmatch

theorem Scans.ifapply {action : List Char → σ → Option σ}
    (hparser : Scans step spoiled before after parser)
    (haction : ∀ text state state', action text state = some state' →
      spoiled state → spoiled state') :
    Scans step spoiled before after (ifapply parser action) := by
  intro input state rest state' hmatch hclean q hq
  obtain ⟨state₁, h, hrun⟩ := ifapply_inv hmatch
  have hclean₁ : ¬ spoiled state₁ := fun hspoiled => hclean (haction _ _ _ hrun hspoiled)
  exact hparser input state rest state₁ h hclean₁ q hq

theorem Scans.repeated (hparser : Scans step spoiled before before parser)
    (hkeeps : Preserves spoiled parser) (fuel : Nat) :
    Scans step spoiled before before (repeated parser fuel) := by
  induction fuel with
  | zero => exact fun _ _ _ _ hmatch => by simp [Peg.repeated] at hmatch
  | succ fuel ih =>
      intro input state rest state' hmatch hclean q hq
      simp only [Peg.repeated] at hmatch
      split at hmatch
      · obtain ⟨rfl, -⟩ : input = rest ∧ state = state' := by simpa using hmatch
        exact ⟨q, hq, rfl⟩
      · split at hmatch
        · rename_i between state₁ hfirst
          have hclean₁ : ¬ spoiled state₁ :=
            fun hspoiled => hclean ((hkeeps.repeated fuel).matched hmatch hspoiled)
          obtain ⟨q₁, hq₁, heq₁⟩ := hparser input state between state₁ hfirst hclean₁ q hq
          obtain ⟨q₂, hq₂, heq₂⟩ := ih between state₁ rest state' hmatch hclean q₁ hq₁
          exact ⟨q₂, hq₂, heq₁.trans heq₂⟩
        · obtain ⟨rfl, -⟩ : input = rest ∧ _ = state' := by simpa using hmatch
          exact ⟨q, hq, rfl⟩
        · simp at hmatch

theorem Scans.star (hparser : Scans step spoiled before before parser)
    (hkeeps : Preserves spoiled parser) : Scans step spoiled before before (star parser) :=
  fun input state => hparser.repeated hkeeps _ input state

end

end Peg
