import Borealis.State.PredicateState
import Borealis.Term.Predicate

/-!
# Simplification of predicate states

`simplify` of `BasicPredicateState`, `PredicateStateChain` and `PredicateStateChoice`.  A chain
drops a part that is empty after simplification; a choice drops its empty alternatives, collapses
to its only alternative, and turns two alternatives `x = true`, `x = false` into the empty choice.
The pair is recognized by a pattern of the functional-hell library, which is a parameter here
(`matcher`); `MatchesComplementaryPairs` is what the pattern is documented to do.

Dropping an empty state is right when it stands for `true` under a chain and for `false` under a
choice.  An empty state can stand for either: `()` means true, the empty choice means false.
`Droppable` says that every empty state inside a state is of the right kind and that no choice
is a complementary pair; `holds_simplify` shows that the meaning is then kept.
-/

namespace Borealis

namespace PredicateState

section Generic

variable {Pred : Type} (matcher : List (PredicateState Pred) → Bool)

mutual
/-- `simplify` of the three classes. -/
def simplify : PredicateState Pred → PredicateState Pred
  | basic data => basic data
  | chain base curr =>
    let base' := simplify base
    let curr' := simplify curr
    if curr'.isEmpty then base'
    else if base'.isEmpty then curr'
    else chain base' curr'
  | choice choices =>
    let simplified := (simplifyAll choices).filter fun c => !c.isEmpty
    if matcher simplified then choice []
    else
      match simplified with
      | [c] => c
      | cs => choice cs

/-- `simplify` on every alternative of a choice. -/
def simplifyAll : List (PredicateState Pred) → List (PredicateState Pred)
  | [] => []
  | c :: cs => simplify c :: simplifyAll cs
end

theorem simplifyAll_eq_map (cs : List (PredicateState Pred)) :
    simplifyAll matcher cs = cs.map (simplify matcher) := by
  induction cs with
  | nil => rfl
  | cons c cs ih => simp [simplifyAll, ih]

/-- The alternatives that `PredicateStateChoice::simplify` keeps. -/
def kept (choices : List (PredicateState Pred)) : List (PredicateState Pred) :=
  (choices.map (simplify matcher)).filter fun c => !c.isEmpty

/-- A choice that is not a complementary pair means the disjunction of what it keeps. -/
theorem holds_simplify_choice_of_kept (v : Pred → Bool) {choices : List (PredicateState Pred)}
    (hmatch : matcher (kept matcher choices) = false) :
    (simplify matcher (choice choices)).holds v = (kept matcher choices).any (holds v) := by
  have hkept : (simplifyAll matcher choices).filter (fun c => !c.isEmpty) =
      kept matcher choices := by
    rw [simplifyAll_eq_map, kept]
  simp only [simplify, hkept, hmatch, Bool.false_eq_true, if_false]
  split
  · next c hc => simp [hc]
  · exact holds_choice v _

/-- A choice that is not a complementary pair has the predicates of what it keeps. -/
theorem preds_simplify_choice_of_kept {choices : List (PredicateState Pred)}
    (hmatch : matcher (kept matcher choices) = false) :
    (simplify matcher (choice choices)).preds = (kept matcher choices).flatMap preds := by
  have hkept : (simplifyAll matcher choices).filter (fun c => !c.isEmpty) =
      kept matcher choices := by
    rw [simplifyAll_eq_map, kept]
  simp only [simplify, hkept, hmatch, Bool.false_eq_true, if_false]
  split
  · next c hc => simp [hc]
  · rw [preds, predsAll_eq_flatMap]

/-! ## Empty states -/

/-- The truth value an empty state has under every valuation. -/
def vacuous (s : PredicateState Pred) : Bool :=
  s.holds fun _ => true

/-- The meaning of an empty state does not depend on the valuation. -/
theorem holds_of_isEmpty (v : Pred → Bool) {s : PredicateState Pred} (h : s.isEmpty = true) :
    s.holds v = s.vacuous := by
  induction s using induction with
  | basic data =>
      have : data = [] := by simpa [isEmpty] using h
      simp [this, vacuous]
  | chain base curr hbase hcurr =>
      simp only [isEmpty, Bool.and_eq_true] at h
      simp only [vacuous, holds_chain] at hbase hcurr ⊢
      rw [hbase h.2, hcurr h.1]
  | choice choices ih =>
      rw [isEmpty_choice_iff] at h
      simp only [vacuous, holds_choice] at ih ⊢
      rw [Bool.eq_iff_iff, List.any_eq_true, List.any_eq_true]
      refine exists_congr fun c => and_congr_right fun hc => ?_
      rw [ih c hc (h c hc)]

/-! ## When nothing is lost -/

variable (complementary : Pred → Pred → Prop)

/-- The pattern of `PredicateStateChoice::simplify` matches only two basic states of one
predicate each, the predicates being complementary. -/
def MatchesComplementaryPairs : Prop :=
  ∀ states, matcher states = true →
    ∃ p q, states = [basic [p], basic [q]] ∧ complementary p q

/-- The non-empty alternatives of a choice are two, of one predicate each, and the predicates
are complementary. -/
def IsComplementaryPair (choices : List (PredicateState Pred)) : Prop :=
  ∃ a b p q, choices.filter (fun c => !c.isEmpty) = [a, b] ∧ a.preds = [p] ∧ b.preds = [q] ∧
    complementary p q

mutual
/-- Nothing that `simplify` drops or collapses carries meaning: an empty part of a chain means
true (or the whole chain is empty and false), an empty alternative of a choice means false, and
no choice is a complementary pair. -/
def Droppable : PredicateState Pred → Prop
  | basic _ => True
  | chain base curr =>
    Droppable base ∧ Droppable curr ∧
      (curr.isEmpty = true →
        curr.vacuous = true ∨ base.isEmpty = true ∧ base.vacuous = false) ∧
      (base.isEmpty = true → curr.isEmpty = false → base.vacuous = true)
  | choice choices =>
    DroppableAll choices ∧ (∀ c ∈ choices, c.isEmpty = true → c.vacuous = false) ∧
      ¬ IsComplementaryPair complementary choices

/-- The same for every alternative of a choice. -/
def DroppableAll : List (PredicateState Pred) → Prop
  | [] => True
  | c :: cs => Droppable c ∧ DroppableAll cs
end

theorem droppableAll_iff {cs : List (PredicateState Pred)} :
    DroppableAll complementary cs ↔ ∀ c ∈ cs, Droppable complementary c := by
  induction cs with
  | nil => simp [DroppableAll]
  | cons c cs ih => simp [DroppableAll, ih]

mutual
/-- No choice inside the state loses an alternative that can hold: its empty alternatives mean
false, and it is no complementary pair. -/
def ChoicesKept : PredicateState Pred → Prop
  | basic _ => True
  | chain base curr => ChoicesKept base ∧ ChoicesKept curr
  | choice choices =>
    ChoicesKeptAll choices ∧ (∀ c ∈ choices, c.isEmpty = true → c.vacuous = false) ∧
      ¬ IsComplementaryPair complementary choices

/-- The same for every alternative of a choice. -/
def ChoicesKeptAll : List (PredicateState Pred) → Prop
  | [] => True
  | c :: cs => ChoicesKept c ∧ ChoicesKeptAll cs
end

theorem choicesKeptAll_iff {cs : List (PredicateState Pred)} :
    ChoicesKeptAll complementary cs ↔ ∀ c ∈ cs, ChoicesKept complementary c := by
  induction cs with
  | nil => simp [ChoicesKeptAll]
  | cons c cs ih => simp [ChoicesKeptAll, ih]

variable {matcher complementary}

theorem isEmpty_congr {s t : PredicateState Pred} (h : s.preds = t.preds) :
    s.isEmpty = t.isEmpty := by
  rw [Bool.eq_iff_iff, isEmpty_iff_preds, isEmpty_iff_preds, h]

/-- If simplification keeps the predicates of every alternative, a choice keeps the
simplifications of its non-empty alternatives. -/
theorem kept_eq_map {choices : List (PredicateState Pred)}
    (hpreds : ∀ c ∈ choices, (simplify matcher c).preds = c.preds) :
    kept matcher choices = (choices.filter fun c => !c.isEmpty).map (simplify matcher) := by
  rw [kept, List.filter_map]
  congr 1
  refine List.filter_congr fun c hc => ?_
  simp only [Function.comp_apply, isEmpty_congr (hpreds c hc)]

/-- Without a complementary pair, the pattern does not match what a choice keeps. -/
theorem matcher_kept_eq_false (hmatcher : MatchesComplementaryPairs matcher complementary)
    {choices : List (PredicateState Pred)}
    (hpreds : ∀ c ∈ choices, (simplify matcher c).preds = c.preds)
    (hpair : ¬ IsComplementaryPair complementary choices) :
    matcher (kept matcher choices) = false := by
  by_contra hmatch
  obtain ⟨p, q, hkept, hcomp⟩ := hmatcher _ (by simpa using hmatch)
  rw [kept_eq_map hpreds] at hkept
  obtain ⟨a, rest, hfilter, ha, hrest⟩ := List.map_eq_cons_iff.mp hkept
  obtain ⟨b, rest', hrest', hb, hnil⟩ := List.map_eq_cons_iff.mp hrest
  obtain rfl : rest' = [] := List.map_eq_nil_iff.mp hnil
  subst hrest'
  have hmem : ∀ c ∈ [a, b], c ∈ choices := by
    intro c hc
    rw [← hfilter] at hc
    exact List.mem_of_mem_filter hc
  refine hpair ⟨a, b, p, q, hfilter, ?_, ?_, hcomp⟩
  · rw [← hpreds a (hmem a (by simp)), ha, preds]
  · rw [← hpreds b (hmem b (by simp)), hb, preds]

theorem Droppable.choicesKept {s : PredicateState Pred} (h : Droppable complementary s) :
    ChoicesKept complementary s := by
  induction s using induction with
  | basic data => trivial
  | chain base curr hbase hcurr => exact ⟨hbase h.1, hcurr h.2.1⟩
  | choice choices ih =>
      obtain ⟨hall, hempty, hpair⟩ := h
      rw [droppableAll_iff] at hall
      exact ⟨(choicesKeptAll_iff complementary).mpr fun c hc => ih c hc (hall c hc), hempty, hpair⟩

/-- A state whose choices lose nothing keeps its predicates when simplified. -/
theorem preds_simplify (hmatcher : MatchesComplementaryPairs matcher complementary)
    {s : PredicateState Pred} (h : ChoicesKept complementary s) :
    (simplify matcher s).preds = s.preds := by
  induction s using induction with
  | basic data => simp [simplify]
  | chain base curr hbase hcurr =>
      obtain ⟨hb, hc⟩ := h
      have hb' := hbase hb
      have hc' := hcurr hc
      simp only [simplify, preds]
      split
      · next hempty =>
          rw [hb', ← hc', (isEmpty_iff_preds _).mp hempty, List.append_nil]
      · split
        · next hempty =>
            rw [hc', ← hb', (isEmpty_iff_preds _).mp hempty, List.nil_append]
        · rw [preds, hb', hc']
  | choice choices ih =>
      obtain ⟨hall, -, hpair⟩ := h
      rw [choicesKeptAll_iff] at hall
      have hpreds : ∀ c ∈ choices, (simplify matcher c).preds = c.preds :=
        fun c hc => ih c hc (hall c hc)
      rw [preds_simplify_choice_of_kept matcher (matcher_kept_eq_false hmatcher hpreds hpair),
        kept_eq_map hpreds, preds, predsAll_eq_flatMap]
      clear ih hall hpair
      induction choices with
      | nil => rfl
      | cons c cs ihcs =>
          have hrest := ihcs fun d hd => hpreds d (List.mem_cons_of_mem _ hd)
          have hhead := hpreds c List.mem_cons_self
          by_cases hempty : c.isEmpty = true
          · have hnil : c.preds = [] := (isEmpty_iff_preds c).mp hempty
            simp [hempty, hnil, hrest]
          · simp [hempty, hhead, hrest]

/-- **Simplification keeps the meaning of a state from which nothing is lost.** -/
theorem holds_simplify (hmatcher : MatchesComplementaryPairs matcher complementary)
    (v : Pred → Bool) {s : PredicateState Pred} (h : Droppable complementary s) :
    (simplify matcher s).holds v = s.holds v := by
  induction s using induction with
  | basic data => rw [simplify]
  | chain base curr hbase hcurr =>
      have hpb := isEmpty_congr (preds_simplify hmatcher h.1.choicesKept)
      have hpc := isEmpty_congr (preds_simplify hmatcher h.2.1.choicesKept)
      obtain ⟨hb, hc, hdropc, hdropb⟩ := h
      simp only [simplify, hpb, hpc, holds_chain]
      split
      · next hempty =>
          rw [hbase hb, holds_of_isEmpty v hempty]
          rcases hdropc hempty with hvac | ⟨hbempty, hbvac⟩
          · rw [hvac, Bool.and_true]
          · rw [holds_of_isEmpty v hbempty, hbvac, Bool.false_and]
      · next hcempty =>
          split
          · next hempty =>
              rw [hcurr hc, holds_of_isEmpty v hempty, hdropb hempty (by simpa using hcempty),
                Bool.true_and]
          · rw [holds_chain, hbase hb, hcurr hc]
  | choice choices ih =>
      obtain ⟨hall, hempty, hpair⟩ := h
      rw [droppableAll_iff] at hall
      have hpreds : ∀ c ∈ choices, (simplify matcher c).preds = c.preds :=
        fun c hc => preds_simplify hmatcher (hall c hc).choicesKept
      rw [holds_simplify_choice_of_kept matcher v (matcher_kept_eq_false hmatcher hpreds hpair),
        kept_eq_map hpreds, holds_choice, Bool.eq_iff_iff, List.any_eq_true, List.any_eq_true]
      constructor
      · rintro ⟨d, hd, hholds⟩
        obtain ⟨c, hc, rfl⟩ := List.mem_map.mp hd
        have hmem := List.mem_of_mem_filter hc
        exact ⟨c, hmem, by rw [← ih c hmem (hall c hmem), hholds]⟩
      · rintro ⟨c, hc, hholds⟩
        -- a true alternative is not one of the dropped ones, which are false
        have hne : c.isEmpty = false := by
          by_contra hcontra
          have := hempty c hc (by simpa using hcontra)
          rw [holds_of_isEmpty v (by simpa using hcontra), this] at hholds
          exact Bool.false_ne_true hholds
        refine ⟨simplify matcher c, List.mem_map.mpr ⟨c, ?_, rfl⟩, ?_⟩
        · exact List.mem_filter.mpr ⟨hc, by simp [hne]⟩
        · rw [ih c hc (hall c hc), hholds]

/-- **Simplification only weakens a state whose choices lose nothing.**  A chain may drop any
empty part. -/
theorem holds_simplify_of_holds (hmatcher : MatchesComplementaryPairs matcher complementary)
    (v : Pred → Bool) {s : PredicateState Pred} (h : ChoicesKept complementary s)
    (hs : s.holds v = true) : (simplify matcher s).holds v = true := by
  induction s using induction with
  | basic data => rwa [simplify]
  | chain base curr hbase hcurr =>
      rw [holds_chain, Bool.and_eq_true] at hs
      have hb := hbase h.1 hs.1
      have hc := hcurr h.2 hs.2
      unfold simplify
      dsimp only
      split
      · exact hb
      · split
        · exact hc
        · rw [holds_chain, hb, hc, Bool.and_self]
  | choice choices ih =>
      obtain ⟨hall, hempty, hpair⟩ := h
      rw [choicesKeptAll_iff] at hall
      have hpreds : ∀ c ∈ choices, (simplify matcher c).preds = c.preds :=
        fun c hc => preds_simplify hmatcher (hall c hc)
      rw [holds_simplify_choice_of_kept matcher v (matcher_kept_eq_false hmatcher hpreds hpair),
        kept_eq_map hpreds, List.any_eq_true]
      rw [holds_choice, List.any_eq_true] at hs
      obtain ⟨c, hc, hholds⟩ := hs
      -- the alternative that holds is kept, because a dropped one is false
      have hne : c.isEmpty = false := by
        by_contra hcontra
        have := hempty c hc (by simpa using hcontra)
        rw [holds_of_isEmpty v (by simpa using hcontra), this] at hholds
        exact Bool.false_ne_true hholds
      refine ⟨simplify matcher c, List.mem_map.mpr ⟨c, ?_, rfl⟩, ih c hc (hall c hc) hholds⟩
      exact List.mem_filter.mpr ⟨hc, by simp [hne]⟩

/-- The simplified state loses nothing in its choices either. -/
theorem choicesKept_simplify (hmatcher : MatchesComplementaryPairs matcher complementary)
    {s : PredicateState Pred} (h : ChoicesKept complementary s) :
    ChoicesKept complementary (simplify matcher s) := by
  induction s using induction with
  | basic data => exact h
  | chain base curr hbase hcurr =>
      unfold simplify
      dsimp only
      split
      · exact hbase h.1
      · split
        · exact hcurr h.2
        · exact ⟨hbase h.1, hcurr h.2⟩
  | choice choices ih =>
      obtain ⟨hall, hempty, hpair⟩ := h
      rw [choicesKeptAll_iff] at hall
      have hpreds : ∀ c ∈ choices, (simplify matcher c).preds = c.preds :=
        fun c hc => preds_simplify hmatcher (hall c hc)
      have hmatch := matcher_kept_eq_false hmatcher hpreds hpair
      have hkept : (simplifyAll matcher choices).filter (fun c => !c.isEmpty) =
          kept matcher choices := by
        rw [simplifyAll_eq_map, kept]
      have hmem : ∀ d ∈ kept matcher choices, ∃ c ∈ choices, d = simplify matcher c := by
        intro d hd
        obtain ⟨c, hc, rfl⟩ := List.mem_map.mp (List.mem_of_mem_filter hd)
        exact ⟨c, hc, rfl⟩
      simp only [simplify, hkept, hmatch, Bool.false_eq_true, if_false]
      split
      · next d hd =>
          obtain ⟨c, hc, rfl⟩ := hmem d (by rw [hd]; exact List.mem_singleton_self d)
          exact ih c hc (hall c hc)
      · refine ⟨(choicesKeptAll_iff complementary).mpr fun d hd => ?_, fun d hd hde => ?_, ?_⟩
        · obtain ⟨c, hc, rfl⟩ := hmem d hd
          exact ih c hc (hall c hc)
        · have := (List.mem_filter.mp hd).2
          simp [hde] at this
        · -- the kept alternatives are the non-empty ones, with their predicates
          rintro ⟨a, b, p, q, hfilter, ha, hb, hcomp⟩
          have hself : (kept matcher choices).filter (fun c => !c.isEmpty) =
              kept matcher choices := by
            rw [kept, List.filter_filter]
            simp only [Bool.and_self]
          rw [hself, kept_eq_map hpreds] at hfilter
          obtain ⟨a', rest, hrest, ha', hmap⟩ := List.map_eq_cons_iff.mp hfilter
          obtain ⟨b', rest', hrest', hb', hnil⟩ := List.map_eq_cons_iff.mp hmap
          obtain rfl : rest' = [] := List.map_eq_nil_iff.mp hnil
          subst hrest'
          have hin : ∀ c ∈ [a', b'], c ∈ choices := by
            intro c hc
            rw [← hrest] at hc
            exact List.mem_of_mem_filter hc
          refine hpair ⟨a', b', p, q, hrest, ?_, ?_, hcomp⟩
          · rw [← hpreds a' (hin a' (by simp)), ha', ha]
          · rw [← hpreds b' (hin b' (by simp)), hb', hb]

end Generic

/-! ## States of Borealis predicates -/

/-- `$BasicPredicateState(BSeq($EqualityPredicate(_1, $OpaqueBoolConstantTerm(_2))))`. -/
def asBoolEquality : PredicateState Predicate → Option (Term × Bool)
  | basic [p] => p.asBoolEquality
  | _ => none

/-- The pattern of `PredicateStateChoice::simplify`, with `Term::equals` for the second
occurrence of `_1`. -/
def complementaryPair : List (PredicateState Predicate) → Bool
  | [s, t] =>
    match s.asBoolEquality, t.asBoolEquality with
    | some (x, b), some (y, c) => x.equals y && b == !c
    | _, _ => false
  | _ => false

theorem exists_of_asBoolEquality {s : PredicateState Predicate} {x : Term} {b : Bool}
    (h : s.asBoolEquality = some (x, b)) :
    ∃ p, s = basic [p] ∧ p.asBoolEquality = some (x, b) := by
  unfold asBoolEquality at h
  split at h
  · next p => exact ⟨p, rfl, h⟩
  · exact absurd h (by simp)

theorem complementaryPair_matches :
    MatchesComplementaryPairs complementaryPair Predicate.Complementary := by
  intro states hmatch
  unfold complementaryPair at hmatch
  split at hmatch
  · next s t =>
      split at hmatch
      · next x b y c hs ht =>
          obtain ⟨p, rfl, hp⟩ := exists_of_asBoolEquality hs
          obtain ⟨q, rfl, hq⟩ := exists_of_asBoolEquality ht
          simp only [Bool.and_eq_true, beq_iff_eq] at hmatch
          exact ⟨p, q, rfl, x, y, b, hp, by rw [hq, hmatch.2, Bool.not_not], hmatch.1⟩
      · exact absurd hmatch Bool.false_ne_true
  · exact absurd hmatch Bool.false_ne_true

/-- **`simplify` keeps the meaning of every predicate state from which it drops nothing that
carries meaning.** -/
theorem simplify_preserves_meaning {matcher : List (PredicateState Predicate) → Bool}
    (hmatcher : MatchesComplementaryPairs matcher Predicate.Complementary)
    (v : Predicate → Bool) (s : PredicateState Predicate)
    (hs : Droppable Predicate.Complementary s) :
    (simplify matcher s).holds v = s.holds v :=
  holds_simplify hmatcher v hs

/-! ### Runs on small states -/

/-- The term `flag` of the examples. -/
def flag : Term := .mk 0 .opaqueVar .bool "flag" []

/-- The predicate `flag = value`. -/
def flagIs (value : Bool) : Predicate :=
  .equality .path flag
    (.mk 0 (.opaqueBoolConstant value) .bool (if value then "true" else "false") [])

/-- The valuation in which `flag` is `value`: it makes true the equalities of `flag` with
`value` and no other predicate. -/
def valuation (value : Bool) (p : Predicate) : Bool :=
  match p.asBoolEquality with
  | some (_, b) => b == value
  | none => false

theorem valuation_complementary (value : Bool) {p q : Predicate}
    (h : Predicate.Complementary p q) : valuation value p = !valuation value q := by
  obtain ⟨x, y, b, hp, hq, -⟩ := h
  cases b <;> cases value <;> simp [valuation, hp, hq]

/-- An empty base is dropped and the choice behind it keeps both alternatives. -/
theorem simplify_preserves_meaning_chain :
    (simplify complementaryPair (chain (basic []) (choice [basic [flagIs true],
      basic [flagIs false, flagIs false]]))).holds (valuation false) = true := by
  rw [simplify_preserves_meaning complementaryPair_matches]
  · decide
  · refine ⟨trivial, ⟨⟨trivial, trivial, trivial⟩, ?_, ?_⟩, ?_, ?_⟩
    · decide
    · rintro ⟨a, b, p, q, hfilter, ha, hb, -⟩
      simp only [isEmpty, List.filter_cons, List.isEmpty_cons, Bool.not_false, if_true,
        List.filter_nil, List.cons.injEq, and_true] at hfilter
      obtain ⟨rfl, rfl⟩ := hfilter
      simp [preds] at hb
    · decide
    · decide

/-- `() ∨ (flag = true)` is true, but `simplify` drops the empty alternative and leaves
`(flag = true)`. -/
theorem simplify_changes_meaning :
    ¬ ∀ (s : PredicateState Predicate) (v : Predicate → Bool),
      (∀ p q, Predicate.Complementary p q → v p = !v q) →
        (simplify complementaryPair s).holds v = s.holds v := by
  intro hclaim
  have hrun := hclaim (choice [basic [], basic [flagIs true]]) (valuation false)
    fun p q h => valuation_complementary false h
  revert hrun
  decide

end PredicateState

end Borealis
