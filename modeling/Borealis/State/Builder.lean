import Borealis.PredicateStateAnalysis.OptimizeChoices
import Mathlib.Computability.Language

/-!
# Building states part by part

`PredicateStateBuilder` appends one part after the other and leaves out the parts that are empty.
The analyses read two things off a state that was built so: which predicate paths it has, and what
is left of it when a state it was built from is sliced off.

The paths of a state form a language over the predicates (`language`); appending a part multiplies
languages.  `isTidy` says that nothing in a state was built past the builder: no chain has an empty
part and no choice is without alternatives.

## Strategy

`Extends on s` is "`s` was built from `on`".  Slicing such an `s` on `on` walks down the chain and
stops at `on` itself, because everything above weighs more (`Extends.sliceOn`).  If nothing was
appended at all there is nothing to walk down: a chain or a choice cannot be sliced on itself
(`sliceOn_self`).
-/

namespace Borealis

namespace PredicateState

variable {Pred : Type}

/-! ## The language of a state -/

/-- The predicate paths of a state, as a language. -/
def language (s : PredicateState Pred) : Language Pred := {p | p ∈ s.paths}

theorem mem_language {s : PredicateState Pred} {p : List Pred} :
    p ∈ s.language ↔ p ∈ s.paths := Iff.rfl

theorem language_basic (data : List Pred) : (basic data).language = {data} := by
  ext p
  rw [mem_language, mem_paths_basic]
  rfl

@[simp] theorem language_basic_nil : (basic [] : PredicateState Pred).language = 1 :=
  language_basic []

theorem language_basic_append (data rest : List Pred) :
    (basic (data ++ rest)).language = (basic data).language * (basic rest).language := by
  ext p
  rw [Language.mem_mul, mem_language, mem_paths_basic]
  constructor
  · rintro rfl
    exact ⟨data, mem_paths_basic.mpr rfl, rest, mem_paths_basic.mpr rfl, rfl⟩
  · rintro ⟨q, hq, r, hr, rfl⟩
    rw [mem_paths_basic.mp hq, mem_paths_basic.mp hr]

@[simp] theorem language_chain (base curr : PredicateState Pred) :
    (chain base curr).language = base.language * curr.language := by
  ext p
  rw [Language.mem_mul, mem_language, mem_paths_chain]
  rfl

theorem mem_language_choice {cs : List (PredicateState Pred)} {p : List Pred} :
    p ∈ (choice cs).language ↔ ∃ c ∈ cs, p ∈ c.language := mem_paths_choice

@[simp] theorem language_choice_nil : (choice ([] : List (PredicateState Pred))).language = 0 := by
  ext p
  rw [mem_language_choice]
  exact ⟨fun ⟨c, hc, _⟩ => absurd hc List.not_mem_nil, fun h => absurd h (Language.notMem_zero p)⟩

theorem language_choice_cons (c : PredicateState Pred) (cs : List (PredicateState Pred)) :
    (choice (c :: cs)).language = c.language + (choice cs).language := by
  ext p
  rw [mem_language_choice, Language.mem_add, mem_language_choice]
  simp only [List.mem_cons, or_and_right, exists_or, exists_eq_left]

@[simp] theorem language_factoryChoice (cs : List (PredicateState Pred)) :
    (PredicateStateFactory.choice cs).language = (choice cs).language := by
  ext p
  rw [mem_language_choice]
  exact PredicateStateFactory.mem_paths_choice

/-- A valuation satisfies a state exactly when it satisfies a word of its language. -/
theorem holds_iff_language (v : Pred → Bool) (s : PredicateState Pred) :
    s.holds v = true ↔ ∃ p ∈ s.language, p.all v = true := holds_iff_paths v s

theorem language_of_isEmpty {s : PredicateState Pred} (hempty : s.isEmpty = true)
    (hs : s.hasAlternatives = true) : s.language = 1 := by
  ext p
  rw [Language.mem_one, mem_language, mem_paths_of_isEmpty hempty hs]

/-! ## Tidy states -/

mutual
/-- No chain in the state has an empty part, and no choice is without alternatives. -/
def isTidy : PredicateState Pred → Bool
  | basic _ => true
  | chain base curr => !isEmpty base && !isEmpty curr && isTidy base && isTidy curr
  | choice choices => !choices.isEmpty && allTidy choices

/-- The same for every alternative of a choice. -/
def allTidy : List (PredicateState Pred) → Bool
  | [] => true
  | c :: cs => isTidy c && allTidy cs
end

attribute [local simp] isTidy

theorem allTidy_iff {cs : List (PredicateState Pred)} :
    allTidy cs = true ↔ ∀ c ∈ cs, c.isTidy = true := by
  induction cs with
  | nil => simp [allTidy]
  | cons c cs ih => simp [allTidy, ih]

@[simp] theorem isTidy_basic (data : List Pred) : (basic data).isTidy = true := by
  rw [isTidy]

theorem isTidy_chain {base curr : PredicateState Pred} :
    (chain base curr).isTidy = true ↔ base.isEmpty = false ∧ curr.isEmpty = false ∧
      base.isTidy = true ∧ curr.isTidy = true := by
  simp [isTidy, and_assoc]

theorem isTidy_choice {cs : List (PredicateState Pred)} :
    (choice cs).isTidy = true ↔ cs ≠ [] ∧ ∀ c ∈ cs, c.isTidy = true := by
  simp [isTidy, allTidy_iff]

theorem hasAlternatives_of_isTidy {s : PredicateState Pred} (hs : s.isTidy = true) :
    s.hasAlternatives = true := by
  induction s using induction with
  | basic data => exact hasAlternatives_basic data
  | chain base curr hbase hcurr =>
      obtain ⟨-, -, hb, hc⟩ := isTidy_chain.mp hs
      exact hasAlternatives_chain.mpr ⟨hbase hb, hcurr hc⟩
  | choice choices ih =>
      obtain ⟨hne, hall⟩ := isTidy_choice.mp hs
      exact hasAlternatives_choice.mpr ⟨hne, fun c hc => ih c hc (hall c hc)⟩

/-- Where everything is tidy, an empty state is the empty word. -/
theorem language_eq_one {s : PredicateState Pred} (hempty : s.isEmpty = true)
    (hs : s.isTidy = true) : s.language = 1 :=
  language_of_isEmpty hempty (hasAlternatives_of_isTidy hs)

/-- A state that is not empty has a path that is not empty. -/
theorem exists_ne_nil_of_isTidy {s : PredicateState Pred} (hempty : s.isEmpty = false)
    (hs : s.isTidy = true) : ∃ p ∈ s.language, p ≠ [] := by
  induction s using induction with
  | basic data =>
      refine ⟨data, mem_paths_basic.mpr rfl, ?_⟩
      rintro rfl
      exact Bool.noConfusion hempty
  | chain base curr hbase _ =>
      obtain ⟨hb, -, hbTidy, hcTidy⟩ := isTidy_chain.mp hs
      obtain ⟨p, hp, hne⟩ := hbase hb hbTidy
      obtain ⟨q, hq⟩ := exists_mem_paths (hasAlternatives_of_isTidy hcTidy)
      refine ⟨p ++ q, mem_paths_chain.mpr ⟨p, hp, q, hq, rfl⟩, fun hnil => hne ?_⟩
      exact (List.append_eq_nil_iff.mp hnil).1
  | choice choices ih =>
      obtain ⟨-, hall⟩ := isTidy_choice.mp hs
      have hsome : ∃ c ∈ choices, c.isEmpty = false := by
        by_contra hnone
        refine Bool.noConfusion (hempty.symm.trans (isEmpty_choice_iff.mpr fun c hc => ?_))
        exact Bool.not_eq_false _ ▸ fun h => hnone ⟨c, hc, h⟩
      obtain ⟨c, hc, hcEmpty⟩ := hsome
      obtain ⟨p, hp, hne⟩ := ih c hc hcEmpty (hall c hc)
      exact ⟨p, mem_paths_choice.mpr ⟨c, hc, hp⟩, hne⟩

/-- The language of a tidy state tells whether it is empty. -/
theorem isEmpty_eq_of_language_eq {s t : PredicateState Pred} (hs : s.isTidy = true)
    (ht : t.isTidy = true) (h : s.language = t.language) : s.isEmpty = t.isEmpty := by
  have hside : ∀ {s t : PredicateState Pred}, s.isTidy = true → t.isTidy = true →
      s.language = t.language → s.isEmpty = true → t.isEmpty = true := by
    intro s t hs ht h hempty
    by_contra hne
    obtain ⟨p, hp, hpne⟩ := exists_ne_nil_of_isTidy (Bool.eq_false_iff.mpr hne) ht
    rw [← h, language_eq_one hempty hs, Language.mem_one] at hp
    exact hpne hp
  exact Bool.eq_iff_iff.mpr ⟨hside hs ht h, hside ht hs h.symm⟩

theorem isTidy_factoryChain {base curr : PredicateState Pred} (hbase : base.isTidy = true)
    (hcurr : curr.isTidy = true) : (PredicateStateFactory.chain base curr).isTidy = true := by
  unfold PredicateStateFactory.chain
  split
  · exact hcurr
  · next hb =>
      split
      · exact hbase
      · next hc =>
          exact isTidy_chain.mpr ⟨Bool.eq_false_iff.mpr hb, Bool.eq_false_iff.mpr hc, hbase, hcurr⟩

theorem isTidy_factoryChoice {cs : List (PredicateState Pred)} (hne : cs ≠ [])
    (hcs : ∀ c ∈ cs, c.isTidy = true) : (PredicateStateFactory.choice cs).isTidy = true := by
  unfold PredicateStateFactory.choice
  split
  · next c => exact hcs c List.mem_cons_self
  · exact isTidy_choice.mpr ⟨hne, hcs⟩

theorem isEmpty_factoryChoice {cs : List (PredicateState Pred)} :
    (PredicateStateFactory.choice cs).isEmpty = true ↔ ∀ c ∈ cs, c.isEmpty = true := by
  unfold PredicateStateFactory.choice
  split
  · next c => simp
  · exact isEmpty_choice_iff

/-! ## Factoring keeps states tidy -/

theorem isTidy_getFront {s : PredicateState Pred} (hs : s.isTidy = true) :
    s.getFront.isTidy = true := by
  induction s using induction with
  | basic data => exact hs
  | chain base curr hbase _ => exact hbase (isTidy_chain.mp hs).2.2.1
  | choice choices _ => exact hs

/-- What follows the front of a chain is not empty. -/
theorem isEmpty_rest_chain {base curr : PredicateState Pred}
    (hs : (chain base curr).isTidy = true) : (chain base curr).rest.isEmpty = false := by
  obtain ⟨-, hcurr, -, -⟩ := isTidy_chain.mp hs
  cases base with
  | basic data => exact hcurr
  | choice choices => exact hcurr
  | chain b m => rw [rest, isEmpty, hcurr, Bool.false_and]

theorem isTidy_rest {s : PredicateState Pred} (hs : s.isTidy = true) : s.rest.isTidy = true := by
  induction s using induction with
  | basic data => exact isTidy_basic []
  | choice choices _ => exact isTidy_basic []
  | chain base curr hbase _ =>
      obtain ⟨-, hcurr, hb, hc⟩ := isTidy_chain.mp hs
      cases base with
      | basic data => exact hc
      | choice choices => exact hc
      | chain b m => exact isTidy_chain.mpr ⟨isEmpty_rest_chain hb, hcurr, hbase hb, hc⟩

section Factoring

variable [DecidableEq Pred] (eqv : Pred → Pred → Bool)

omit [DecidableEq Pred] in
/-- What a `mapM` in `Option` returns comes from its arguments. -/
theorem mem_of_mapM {α : Type} {f : α → Option (PredicateState Pred)} {l : List α}
    {ys : List (PredicateState Pred)} (hrun : l.mapM f = some ys) :
    ys.length = l.length ∧ ∀ y ∈ ys, ∃ a ∈ l, f a = some y := by
  induction l generalizing ys with
  | nil =>
      rw [List.mapM_nil] at hrun
      obtain rfl := Option.some.inj hrun
      exact ⟨rfl, fun y hy => absurd hy List.not_mem_nil⟩
  | cons a l ih =>
      rw [List.mapM_cons] at hrun
      obtain ⟨y, hy, hrun⟩ := Option.bind_eq_some_iff.mp hrun
      obtain ⟨rest, hrest, heq⟩ := Option.bind_eq_some_iff.mp hrun
      obtain rfl := Option.some.inj heq
      obtain ⟨hlength, hmem⟩ := ih hrest
      refine ⟨congrArg (· + 1) hlength, fun z hz => ?_⟩
      rcases List.mem_cons.mp hz with rfl | hz
      · exact ⟨a, List.mem_cons_self, hy⟩
      · obtain ⟨b, hb, hbz⟩ := hmem z hz
        exact ⟨b, List.mem_cons_of_mem a hb, hbz⟩

/-- One group of tidy states becomes a tidy state. -/
theorem isTidy_joined {G : Grouping Pred} {fuel : Nat} {call : List Nat}
    {candidate joint : PredicateState Pred} {states : List (PredicateState Pred)} {i : Nat}
    (hfront : ∀ s ∈ states, s.getFront = candidate) (hne : states ≠ [])
    (hstates : ∀ s ∈ states, s.isTidy = true)
    (ih : ∀ (call : List Nat) (choices result : List (PredicateState Pred)), choices ≠ [] →
      (∀ c ∈ choices, c.isTidy = true) →
      optimizeChoices eqv G .doNotOptimizeSubs fuel call choices = some result →
      result ≠ [] ∧ ∀ r ∈ result, r.isTidy = true)
    (hrun : joined eqv G .doNotOptimizeSubs fuel call ((candidate, states), i) = some joint) :
    joint.isTidy = true := by
  unfold joined at hrun
  cases hempty : candidate.isEmpty with
  | true =>
      have hself : states.filterMap (remainder eqv candidate) = states := by
        have : remainder eqv candidate = some := by
          funext s
          rw [remainder, if_pos hempty]
        rw [this, List.filterMap_some]
      simp only [hempty, if_true, hself] at hrun
      rw [← Option.some.inj hrun]
      exact isTidy_factoryChoice hne hstates
  | false =>
      simp only [hempty, Bool.false_eq_true, if_false, filterMap_remainder eqv hempty hfront] at hrun
      obtain ⟨optimized, hoptimized, rfl⟩ := Option.map_eq_some_iff.mp hrun
      obtain ⟨hoptNe, hoptTidy⟩ := ih (i :: call) (states.map rest) optimized (by simpa using hne)
        (by
          intro r hr
          obtain ⟨s, hs, rfl⟩ := List.mem_map.mp hr
          exact isTidy_rest (hstates s hs)) hoptimized
      obtain ⟨s, hs⟩ := List.exists_mem_of_ne_nil states hne
      have hcandidate : candidate.isTidy = true := hfront s hs ▸ isTidy_getFront (hstates s hs)
      exact isTidy_factoryChain hcandidate (isTidy_factoryChoice hoptNe hoptTidy)

theorem isTidy_of_optimizeChoices {G : Grouping Pred} {fuel : Nat} {call : List Nat}
    {choices result : List (PredicateState Pred)} (hne : choices ≠ [])
    (hchoices : ∀ c ∈ choices, c.isTidy = true)
    (hrun : optimizeChoices eqv G .doNotOptimizeSubs fuel call choices = some result) :
    result ≠ [] ∧ ∀ r ∈ result, r.isTidy = true := by
  induction fuel generalizing call choices result with
  | zero => exact absurd hrun.symm (Option.some_ne_none result)
  | succ fuel ih =>
      unfold optimizeChoices at hrun
      rw [expanded, Option.bind_some] at hrun
      by_cases hfew : (choices.filter fun c => !c.isEmpty).length < 2
      · rw [if_pos hfew] at hrun
        exact Option.some.inj hrun ▸ ⟨hne, hchoices⟩
      simp only [if_neg hfew] at hrun
      let nonEmpty := choices.filter fun c => !c.isEmpty
      obtain ⟨ys, hys, rfl⟩ := Option.map_eq_some_iff.mp hrun
      obtain ⟨hlength, hmem⟩ := mem_of_mapM hys
      have hysTidy : ∀ y ∈ ys, y.isTidy = true := by
        intro y hy
        obtain ⟨⟨g, i⟩, hg, hjoined⟩ := hmem y hy
        have hg : g ∈ G.groups call nonEmpty := (List.mem_zipIdx' hg).2 ▸ List.getElem_mem _
        refine isTidy_joined eqv (G.front_eq call nonEmpty g hg) (G.ne_nil call nonEmpty g hg)
          (fun s hs => ?_) (fun call' choices' result' => ih) hjoined
        have : s ∈ nonEmpty := (G.perm call nonEmpty).mem_iff.mp (List.mem_flatMap.mpr ⟨g, hg, hs⟩)
        exact hchoices s (List.mem_of_mem_filter this)
      have hysNe : ys ≠ [] := by
        rintro rfl
        -- no group, so no state that is not empty
        have hgroups : G.groups call nonEmpty = [] :=
          List.zipIdx_eq_nil_iff.mp (List.eq_nil_of_length_eq_zero hlength.symm)
        have hperm := (G.perm call nonEmpty).length_eq
        rw [hgroups, List.flatMap_nil, List.length_nil] at hperm
        exact hfew (hperm ▸ Nat.two_pos)
      refine ⟨fun hnil => hysNe (List.append_eq_nil_iff.mp hnil).2, fun r hr => ?_⟩
      rcases List.mem_append.mp hr with hr | hr
      · split at hr
        · exact List.mem_singleton.mp hr ▸ isTidy_basic []
        · exact absurd hr List.not_mem_nil
      · exact hysTidy r hr

/-- **Factoring tidy alternatives succeeds and changes no path.** -/
theorem optimizeChoices_spec (G : Grouping Pred) {choices : List (PredicateState Pred)}
    (hne : choices ≠ []) (hchoices : ∀ c ∈ choices, c.isTidy = true) :
    ∃ result, optimizeChoices eqv G .doNotOptimizeSubs (weightAll choices + 1) [] choices =
        some result ∧ result ≠ [] ∧ (∀ r ∈ result, r.isTidy = true) ∧
      (choice result).language = (choice choices).language := by
  obtain ⟨result, hrun, hfactors⟩ := optimizeChoices_factors eqv G .doNotOptimizeSubs []
    (fun c hc => hasAlternatives_of_isTidy (hchoices c hc)) (Nat.lt_succ_self (weightAll choices))
  obtain ⟨hresultNe, htidy⟩ := isTidy_of_optimizeChoices eqv hne hchoices hrun
  exact ⟨result, hrun, hresultNe, htidy, Language.ext hfactors.paths⟩

end Factoring

/-- The state is a `BasicPredicateState`. -/
def isBasic : PredicateState Pred → Bool
  | basic _ => true
  | _ => false

end PredicateState

/-! ## The builder -/

namespace PredicateStateBuilder

open PredicateState

variable {Pred : Type}

/-- `PredicateStateBuilder::operator+=`. -/
def add (state s : PredicateState Pred) : PredicateState Pred :=
  if s.isEmpty then state
  else if state.isEmpty then s
  else PredicateStateFactory.chain state s

theorem add_of_isEmpty {state s : PredicateState Pred} (hs : s.isEmpty = true) :
    add state s = state := if_pos hs

theorem add_eq_chain {state s : PredicateState Pred} (hstate : state.isEmpty = false)
    (hs : s.isEmpty = false) : add state s = .chain state s := by
  simp [add, PredicateStateFactory.chain, hstate, hs]

theorem isEmpty_add (state s : PredicateState Pred) :
    (add state s).isEmpty = (state.isEmpty && s.isEmpty) := by
  cases hs : s.isEmpty with
  | true => rw [add_of_isEmpty hs, Bool.and_true]
  | false =>
      cases hstate : state.isEmpty with
      | true => simp [add, hs, hstate]
      | false => simp [add_eq_chain hstate hs, isEmpty, hs]

theorem isTidy_add {state s : PredicateState Pred} (hstate : state.isTidy = true)
    (hs : s.isTidy = true) : (add state s).isTidy = true := by
  unfold add
  split
  · exact hstate
  · split
    · exact hs
    · exact isTidy_factoryChain hstate hs

/-- **Appending a part multiplies the languages.** -/
theorem language_add {state s : PredicateState Pred} (hstate : state.isTidy = true)
    (hs : s.isTidy = true) : (add state s).language = state.language * s.language := by
  cases hempty : s.isEmpty with
  | true => rw [add_of_isEmpty hempty, language_eq_one hempty hs, mul_one]
  | false =>
      cases hstateEmpty : state.isEmpty with
      | true => simp [add, hempty, hstateEmpty, language_eq_one hstateEmpty hstate]
      | false => rw [add_eq_chain hstateEmpty hempty, language_chain]

end PredicateStateBuilder

/-! ## Slicing off what a state was built from -/

namespace PredicateState

open PredicateStateBuilder

variable {Pred : Type}

theorem weight_lt_chain (base curr : PredicateState Pred) :
    base.weight < (chain base curr).weight := by
  have hbase := two_le_weight base
  have hcurr := two_le_weight curr
  rw [weight]
  calc base.weight < base.weight * 2 := by omega
    _ ≤ base.weight * curr.weight := Nat.mul_le_mul_left _ hcurr

theorem weight_lt_add {state part : PredicateState Pred} (hstate : state.isEmpty = false)
    (hpart : part.isEmpty = false) : state.weight < (add state part).weight := by
  rw [add_eq_chain hstate hpart]
  exact weight_lt_chain state part

/-- `s` was built from `on` by appending tidy parts. -/
inductive Extends (on : PredicateState Pred) : PredicateState Pred → Prop
  | refl : Extends on on
  | add {s part : PredicateState Pred} : Extends on s → part.isTidy = true →
      Extends on (add s part)

namespace Extends

variable {on mid s : PredicateState Pred}

theorem trans (hmid : Extends on mid) (hs : Extends mid s) : Extends on s := by
  induction hs with
  | refl => exact hmid
  | add _ hpart ih => exact ih.add hpart

theorem isTidy (hon : on.isTidy = true) (h : Extends on s) : s.isTidy = true := by
  induction h with
  | refl => exact hon
  | add _ hpart ih => exact isTidy_add ih hpart

theorem isEmpty_eq_false (hon : on.isEmpty = false) (h : Extends on s) : s.isEmpty = false := by
  induction h with
  | refl => exact hon
  | add _ _ ih => rw [isEmpty_add, ih, Bool.false_and]

theorem weight_le (hon : on.isEmpty = false) (h : Extends on s) : on.weight ≤ s.weight := by
  induction h with
  | refl => exact Nat.le_refl _
  | @add s part hs hpart ih =>
      cases hempty : part.isEmpty with
      | true => rwa [add_of_isEmpty hempty]
      | false =>
          rw [add_eq_chain (hs.isEmpty_eq_false hon) hempty]
          exact ih.trans (weight_lt_chain s part).le

/-- Nothing was appended, or the state weighs more than what it was built from. -/
theorem eq_or_weight_lt (hon : on.isEmpty = false) (h : Extends on s) :
    s = on ∨ on.weight < s.weight := by
  induction h with
  | refl => exact Or.inl rfl
  | @add s part hs hpart ih =>
      cases hempty : part.isEmpty with
      | true => rwa [add_of_isEmpty hempty]
      | false =>
          right
          rw [add_eq_chain (hs.isEmpty_eq_false hon) hempty]
          exact (hs.weight_le hon).trans_lt (weight_lt_chain s part)

/-- Something was appended, so the state is a chain. -/
theorem isBasic_eq_false (hon : on.isEmpty = false) (h : Extends on s)
    (hlt : on.weight < s.weight) : s.isBasic = false := by
  induction h with
  | refl => exact absurd hlt (Nat.lt_irrefl _)
  | @add s part hs hpart ih =>
      cases hempty : part.isEmpty with
      | true =>
          rw [add_of_isEmpty hempty] at hlt ⊢
          exact ih hlt
      | false =>
          rw [add_eq_chain (hs.isEmpty_eq_false hon) hempty]
          rfl

end Extends

/-- `next` was built from `s`: `added` is the language of what was appended, and `nothing` says that
all of it was empty. -/
structure Grows (s next : PredicateState Pred) (added : Language Pred) (nothing : Prop) : Prop where
  built : Extends s next
  language : next.language = s.language * added
  eq : nothing → next = s
  weight_lt : ¬ nothing → s.weight < next.weight

namespace Grows

variable {s t u : PredicateState Pred} {added added' : Language Pred} {nothing nothing' : Prop}

theorem refl (s : PredicateState Pred) : Grows s s 1 True :=
  ⟨Extends.refl, (mul_one _).symm, fun _ => rfl, fun h => absurd trivial h⟩

theorem add {part : PredicateState Pred} (hs : s.isTidy = true) (hempty : s.isEmpty = false)
    (hpart : part.isTidy = true) :
    Grows s (PredicateStateBuilder.add s part) part.language (part.isEmpty = true) :=
  ⟨Extends.refl.add hpart, language_add hs hpart, add_of_isEmpty,
    fun hne => weight_lt_add hempty (Bool.eq_false_iff.mpr hne)⟩

theorem trans (hempty : s.isEmpty = false) (hst : Grows s t added nothing)
    (htu : Grows t u added' nothing') : Grows s u (added * added') (nothing ∧ nothing') := by
  refine ⟨hst.built.trans htu.built, ?_, fun h => (htu.eq h.2).trans (hst.eq h.1), fun h => ?_⟩
  · rw [htu.language, hst.language, mul_assoc]
  · by_cases hnothing : nothing
    · exact hst.eq hnothing ▸ htu.weight_lt fun hnothing' => h ⟨hnothing, hnothing'⟩
    · exact (hst.weight_lt hnothing).trans_le
        (htu.built.weight_le (hst.built.isEmpty_eq_false hempty))

theorem congr (h : Grows s t added nothing) (hadded : added = added')
    (hnothing : nothing ↔ nothing') : Grows s t added' nothing' :=
  hadded ▸ ⟨h.built, h.language, fun hn => h.eq (hnothing.mpr hn),
    fun hn => h.weight_lt fun hn' => hn (hnothing.mp hn')⟩

end Grows

section Slice

variable [DecidableEq Pred] (eqv : Pred → Pred → Bool)

/-- What is left of a state is what was appended. -/
structure IsSlice (on s slice : PredicateState Pred) : Prop where
  nonempty : slice.isEmpty = false
  isTidy : slice.isTidy = true
  language : s.language = on.language * slice.language

theorem equals_eq_false_of_weight_lt {s t : PredicateState Pred} (hlt : t.weight < s.weight) :
    equals eqv s t = false := by
  cases heq : equals eqv s t with
  | false => rfl
  | true => exact absurd (weight_eq_of_equals eqv heq) hlt.ne'

/-- **A state with something appended to `on` can be sliced on `on`.** -/
theorem Extends.sliceOn {on s : PredicateState Pred} (hon : on.isEmpty = false)
    (h : Extends on s) (hlt : on.weight < s.weight) :
    ∃ slice, sliceOn eqv on s = some slice ∧ IsSlice on s slice := by
  induction h with
  | refl => exact absurd hlt (Nat.lt_irrefl _)
  | @add s part hs hpart ih =>
      cases hempty : part.isEmpty with
      | true =>
          rw [add_of_isEmpty hempty] at hlt ⊢
          exact ih hlt
      | false =>
          rw [add_eq_chain (hs.isEmpty_eq_false hon) hempty]
          rcases hs.eq_or_weight_lt hon with rfl | hslt
          · exact ⟨part, by rw [PredicateState.sliceOn, if_pos (equals_refl eqv _)],
              hempty, hpart, language_chain _ _⟩
          · -- the part below weighs more than `on`, so it is not `on` and the walk goes on
            obtain ⟨slice, hslice, hspec⟩ := ih hslt
            refine ⟨chain slice part, ?_, ?_, ?_, ?_⟩
            · rw [PredicateState.sliceOn, equals_eq_false_of_weight_lt eqv hslt,
                if_neg Bool.false_ne_true, hslice, Option.map_some]
            · rw [isEmpty, hempty, Bool.false_and]
            · exact isTidy_chain.mpr ⟨hspec.nonempty, hempty, hspec.isTidy, hpart⟩
            · rw [language_chain, language_chain, hspec.language, mul_assoc]

/-- **Only a basic state can be sliced on itself.** -/
theorem sliceOn_self {s : PredicateState Pred} (hs : s.isTidy = true) :
    PredicateState.sliceOn eqv s s = if s.isBasic then some (basic []) else none := by
  cases s with
  | basic data =>
      rw [PredicateState.sliceOn, if_pos (equals_refl eqv _)]
      rfl
  | chain base curr =>
      have hlt := weight_lt_chain base curr
      have hbase : PredicateState.sliceOn eqv (chain base curr) base = none := by
        cases hslice : PredicateState.sliceOn eqv (chain base curr) base with
        | none => rfl
        | some slice =>
            have htidy := hasAlternatives_of_isTidy (isTidy_chain.mp hs).2.2.1
            exact absurd (weight_le_of_sliceOn eqv htidy hslice) (Nat.not_le_of_lt hlt)
      have hne : equals eqv base (chain base curr) = false := by
        cases heq : equals eqv base (chain base curr) with
        | false => rfl
        | true => exact absurd (weight_eq_of_equals eqv heq) hlt.ne
      rw [PredicateState.sliceOn, hne, if_neg Bool.false_ne_true, hbase]
      rfl
  | choice choices =>
      obtain ⟨hne, -⟩ := isTidy_choice.mp hs
      obtain ⟨c, cs, rfl⟩ := List.exists_cons_of_ne_nil hne
      exact sliceOn_self_choice eqv (hasAlternatives_of_isTidy hs)

end Slice

end PredicateState

end Borealis
