import Borealis.PredicateStateAnalysis.BlockStates

/-!
# The invariant of the processed blocks

`Good` is what holds of the fields of `OneForAll` after any requests: every recorded state is built
from the states of all dominators of its block, and has the predicate paths through the block.

## Strategy

For a predecessor `a` of `b` and the immediate dominator `d` of `b`, the state on the edge is built
from the state of `d`, because `d` dominates `a` too.  Something was added on the way from `d`,
unless `a` is `d` and `b` is passed through (`edgeState_spec`): a branch at `d` has a predicate on
every edge, and if `d` ended in an unconditional branch its successor would be a dominator of `b`
closer than `d`.  So the slices exist, and chaining them behind the state of `d` gives back the
states on the edges (`slices_spec`).
-/

namespace Borealis

open PredicateState PredicateStateBuilder Lib

variable {F : Function}

namespace OneForAll

variable (P : Pass F)

/-- What is recorded for the end of a block. -/
structure BlockSpec (st : State) (b : Nat) (s : PredicateState Predicate) : Prop where
  built : Extends F.initialState s
  dominators : ∀ d, Dominates F.Edge 0 d b →
    ∃ base, st.basicBlockStates d = some base ∧ Extends base s
  language : s.language = entering F P.assumeDefectsTriggerOnce b *
    blockLanguage P.assumeDefectsTriggerOnce (F.block b).instructions
  branching : ∀ d base, Dominates F.Edge 0 d b → d ≠ b →
    (∀ succ, (F.block d).terminator ≠ .br succ) → st.basicBlockStates d = some base →
    base.weight < s.weight
  basic : s.isBasic = true ↔ Bare F P.assumeDefectsTriggerOnce b

/-- **The invariant of `OneForAll`.** -/
structure Good (st : State) : Prop where
  recorded : ∀ b, (st.instructionStates b).isSome = (st.basicBlockStates b).isSome
  closed : ∀ a b, F.Edge a b → (st.basicBlockStates b).isSome = true →
    (st.basicBlockStates a).isSome = true
  processable : ∀ b, (st.basicBlockStates b).isSome = true →
    Processable F P.assumeDefectsTriggerOnce b
  blocks : ∀ b s, st.basicBlockStates b = some s → BlockSpec P st b s
  instructions : ∀ b states, st.instructionStates b = some states →
    states.length = (F.block b).instructions.length ∧
    ∀ k t, states[k]? = some t → t.language = Language.map P.RR
      (entering F P.assumeDefectsTriggerOnce b *
        prefixLanguage P.assumeDefectsTriggerOnce (F.block b).instructions k)

/-- What is computed for the entry to a block. -/
structure EntrySpec (st : State) (b : Nat) (s : PredicateState Predicate) : Prop where
  built : Extends F.initialState s
  dominators : ∀ d, Dominates F.Edge 0 d b → d ≠ b →
    ∃ base, st.basicBlockStates d = some base ∧ Extends base s
  language : s.language = entering F P.assumeDefectsTriggerOnce b
  branching : ∀ d base, Dominates F.Edge 0 d b → d ≠ b →
    (∀ succ, (F.block d).terminator ≠ .br succ) → st.basicBlockStates d = some base →
    base.weight < s.weight
  basic : s.isBasic = true ↔ (b = 0 ∧ F.initialState.isBasic = true) ∨
    ∃ a, PassesThrough F a b ∧ Bare F P.assumeDefectsTriggerOnce a

variable {P}

theorem good_init : Good P State.init :=
  ⟨fun _ => rfl, fun _ _ _ h => absurd h Bool.false_ne_true,
    fun _ h => absurd h Bool.false_ne_true, fun _ s h => absurd h.symm (Option.some_ne_none s),
    fun _ states h => absurd h.symm (Option.some_ne_none states)⟩

theorem BlockSpec.isTidy {st : State} {b : Nat} {s : PredicateState Predicate}
    (h : BlockSpec P st b s) : s.isTidy = true :=
  h.built.isTidy F.initialState_isTidy

theorem BlockSpec.isEmpty_eq_false {st : State} {b : Nat} {s : PredicateState Predicate}
    (h : BlockSpec P st b s) : s.isEmpty = false :=
  h.built.isEmpty_eq_false F.initialState_nonempty

/-! ## The state on an edge -/

/-- **The state on an edge is built from the state of the immediate dominator**, and something was
added to it unless the block is passed through. -/
theorem edgeState_spec {st : State} (hgood : Good P st) {d a b : Nat}
    {base s : PredicateState Predicate} (hidom : IsIdom F.Edge 0 d b)
    (hbase : st.basicBlockStates d = some base) (hedge : F.Edge a b)
    (hs : st.basicBlockStates a = some s)
    (hpreds : ∀ c, F.Edge c b → (st.basicBlockStates c).isSome = true) :
    Extends base (edgeState (F := F) a b s) ∧
      (base.weight < (edgeState (F := F) a b s).weight ∨
        PassesThrough F a b ∧ edgeState (F := F) a b s = base) := by
  have hspec := hgood.blocks a s hs
  have hdom := hidom.dominates.of_edge hidom.ne hedge
  obtain ⟨base', hbase', hbuilt⟩ := hspec.dominators d hdom
  obtain rfl : base' = base := Option.some.inj (hbase'.symm.trans hbase)
  have hgrows := grows_edgeState hedge hspec.isTidy hspec.isEmpty_eq_false
  have hreach : ∀ c, F.Edge c b → HasWalk F.Edge 0 c := fun c hc =>
    (hgood.processable c (hpreds c hc)).hasWalk
  refine ⟨hbuilt.trans hgrows.built, ?_⟩
  rcases eq_or_ne a d with rfl | hne
  · obtain rfl : s = base' := Option.some.inj (hs.symm.trans hbase)
    by_cases hnothing : (F.block a).terminator = .br b ∧
        ∀ phi ∈ (F.block b).phis, phi.hasIncoming a = false
    · right
      exact ⟨passesThrough_of_idom hidom hnothing.1 hnothing.2 hreach, hgrows.eq hnothing⟩
    · exact Or.inl (hgrows.weight_lt hnothing)
  · left
    have hbranch := terminator_ne_br hidom hedge (hreach a hedge) hne
    calc base'.weight < s.weight := hspec.branching d base' hdom hne.symm hbranch hbase
      _ ≤ _ := hgrows.built.weight_le hspec.isEmpty_eq_false

/-! ## The slices -/

/-- The states that `BBM` slices. -/
def edgeStates (F : Function) (st : State) (b : Nat) : List (PredicateState Predicate) :=
  (F.predecessors b).filterMap fun a => (st.basicBlockStates a).map (edgeState (F := F) a b)

theorem mem_edgeStates {st : State} {b : Nat} {e : PredicateState Predicate} :
    e ∈ edgeStates F st b ↔
      ∃ a s, F.Edge a b ∧ st.basicBlockStates a = some s ∧ edgeState (F := F) a b s = e := by
  simp only [edgeStates, List.mem_filterMap, Function.mem_predecessors, Option.map_eq_some_iff]
  constructor
  · rintro ⟨a, hedge, s, hs, rfl⟩
    exact ⟨a, s, hedge, hs, rfl⟩
  · rintro ⟨a, s, hedge, hs, rfl⟩
    exact ⟨a, hedge, s, hs, rfl⟩

/-- The states on the edges have the paths into the block. -/
theorem language_edgeStates {st : State} (hgood : Good P st) {b : Nat} (hb : b ≠ 0)
    (hpreds : ∀ c, F.Edge c b → (st.basicBlockStates c).isSome = true) :
    (choice (edgeStates F st b)).language = entering F P.assumeDefectsTriggerOnce b := by
  have hlanguage : ∀ {a s}, F.Edge a b → st.basicBlockStates a = some s →
      (edgeState (F := F) a b s).language = entering F P.assumeDefectsTriggerOnce a *
        blockLanguage P.assumeDefectsTriggerOnce (F.block a).instructions *
        (basic (edgePart F a b)).language := by
    intro a s hedge hs
    have hspec := hgood.blocks a s hs
    rw [(grows_edgeState hedge hspec.isTidy hspec.isEmpty_eq_false).language, hspec.language]
  ext p
  rw [mem_language_choice, mem_entering hb]
  constructor
  · rintro ⟨e, he, hp⟩
    obtain ⟨a, s, hedge, hs, rfl⟩ := mem_edgeStates.mp he
    exact ⟨a, hedge, hlanguage hedge hs ▸ hp⟩
  · rintro ⟨a, hedge, hp⟩
    obtain ⟨s, hs⟩ := Option.isSome_iff_exists.mp (hpreds a hedge)
    exact ⟨_, mem_edgeStates.mpr ⟨a, s, hedge, hs, rfl⟩, hlanguage hedge hs ▸ hp⟩

/-- A slice of one of the states, and whether anything is left. -/
structure Sliced (base e slice : PredicateState Predicate) (nothing : Prop) : Prop where
  sliceOn : sliceOn Predicate.equals base e = some slice
  isTidy : slice.isTidy = true
  language : e.language = base.language * slice.language
  isEmpty_iff : slice.isEmpty = true ↔ nothing

/-- Slices of all states, one after the other. -/
theorem mapM_sliceOn {base : PredicateState Predicate} {nothing : Prop}
    {es : List (PredicateState Predicate)} (hes : ∀ e ∈ es, ∃ slice, Sliced base e slice nothing) :
    ∃ cs, es.mapM (sliceOn Predicate.equals base) = some cs ∧ cs.length = es.length ∧
      (∀ c ∈ cs, c.isTidy = true ∧ (c.isEmpty = true ↔ nothing)) ∧
      (choice es).language = base.language * (choice cs).language := by
  induction es with
  | nil =>
      refine ⟨[], rfl, rfl, fun c hc => absurd hc List.not_mem_nil, ?_⟩
      rw [language_choice_nil, mul_zero]
  | cons e es ih =>
      obtain ⟨c, hc⟩ := hes e List.mem_cons_self
      obtain ⟨cs, hcs, hlength, hall, hlanguage⟩ :=
        ih fun e' he' => hes e' (List.mem_cons_of_mem e he')
      refine ⟨c :: cs, ?_, congrArg (· + 1) hlength,
        List.forall_mem_cons.mpr ⟨⟨hc.isTidy, hc.isEmpty_iff⟩, hall⟩, ?_⟩
      · rw [List.mapM_cons, hc.sliceOn, hcs]
        rfl
      · rw [language_choice_cons, language_choice_cons, hc.language, hlanguage, mul_add]

/-- **The slices of a block that can be processed**: chained behind the state of the dominator
they are the paths into the block. -/
theorem slices_spec {st : State} (hgood : Good P st) {d b : Nat} (hb : b ≠ 0)
    (hwalk : HasWalk F.Edge 0 b) {base : PredicateState Predicate}
    (hidom : IsIdom F.Edge 0 d b) (hbase : st.basicBlockStates d = some base)
    (hpreds : ∀ c, F.Edge c b → (st.basicBlockStates c).isSome = true)
    (hbare : ∀ a, PassesThrough F a b → Bare F P.assumeDefectsTriggerOnce a) :
    ∃ cs, slices (F := F) st base b = some cs ∧ cs ≠ [] ∧
      (∀ c ∈ cs, c.isTidy = true ∧ (c.isEmpty = true ↔ ∃ a, PassesThrough F a b)) ∧
      base.language * (choice cs).language = entering F P.assumeDefectsTriggerOnce b := by
  have hspec := hgood.blocks d base hbase
  have hsliced : ∀ e ∈ edgeStates F st b, ∃ slice, Sliced base e slice (∃ a, PassesThrough F a b) := by
    intro e he
    obtain ⟨a, s, hedge, hs, rfl⟩ := mem_edgeStates.mp he
    obtain ⟨hbuilt, hlt | ⟨hpass, heq⟩⟩ := edgeState_spec hgood hidom hbase hedge hs hpreds
    · obtain ⟨slice, hslice, hisSlice⟩ :=
        hbuilt.sliceOn Predicate.equals hspec.isEmpty_eq_false hlt
      refine ⟨slice, hslice, hisSlice.isTidy, hisSlice.language, ?_⟩
      rw [hisSlice.nonempty]
      refine ⟨fun h => absurd h Bool.false_ne_true, fun ⟨c, hpass⟩ => ?_⟩
      -- on the one edge of a block that is passed through nothing is added
      obtain rfl : a = c := hpass.only a hedge
      obtain rfl : d = a := hpass.eq_idom hidom hwalk hb
      obtain rfl : s = base := Option.some.inj (hs.symm.trans hbase)
      rw [(grows_edgeState hedge hspec.isTidy hspec.isEmpty_eq_false).eq
        ⟨hpass.terminator, hpass.phis⟩] at hlt
      exact absurd hlt (Nat.lt_irrefl _)
    · obtain rfl : d = a := hpass.eq_idom hidom hwalk hb
      have hbasic := hspec.basic.mpr (hbare d hpass)
      refine ⟨basic [], ?_, isTidy_basic [], ?_, ?_⟩
      · rw [heq, sliceOn_self Predicate.equals hspec.isTidy, if_pos hbasic]
      · rw [heq, language_basic_nil, mul_one]
      · exact ⟨fun _ => ⟨d, hpass⟩, fun _ => rfl⟩
  obtain ⟨cs, hcs, hlength, hall, hlanguage⟩ := mapM_sliceOn hsliced
  refine ⟨cs, hcs, ?_, hall, ?_⟩
  · -- a block that can be reached has a predecessor
    obtain ⟨l, hl⟩ := hwalk
    cases hl with
    | root => exact absurd rfl hb
    | @step a _ _ _ hedge =>
        obtain ⟨s, hs⟩ := Option.isSome_iff_exists.mp (hpreds a hedge)
        have hmem : edgeState (F := F) a b s ∈ edgeStates F st b :=
          mem_edgeStates.mpr ⟨a, s, hedge, hs, rfl⟩
        rintro rfl
        rw [List.length_nil] at hlength
        rw [List.eq_nil_of_length_eq_zero hlength.symm] at hmem
        exact absurd hmem List.not_mem_nil
  · rw [← hlanguage, language_edgeStates hgood hb hpreds]

/-- **Slicing fails where a block is passed through with more than a basic state.** -/
theorem slices_eq_none {st : State} (hgood : Good P st) {d b : Nat} (hb : b ≠ 0)
    (hwalk : HasWalk F.Edge 0 b) {base : PredicateState Predicate}
    (hidom : IsIdom F.Edge 0 d b) (hbase : st.basicBlockStates d = some base) {a : Nat}
    (hpass : PassesThrough F a b) (hbare : ¬ Bare F P.assumeDefectsTriggerOnce a) :
    slices (F := F) st base b = none := by
  have hspec := hgood.blocks d base hbase
  obtain rfl : d = a := hpass.eq_idom hidom hwalk hb
  have hself : sliceOn Predicate.equals base (edgeState (F := F) d b base) = none := by
    rw [(grows_edgeState hpass.edge hspec.isTidy hspec.isEmpty_eq_false).eq
      ⟨hpass.terminator, hpass.phis⟩, sliceOn_self Predicate.equals hspec.isTidy,
      if_neg fun hbasic => hbare (hspec.basic.mp hbasic)]
  have hmem : edgeState (F := F) d b base ∈ edgeStates F st b :=
    mem_edgeStates.mpr ⟨d, base, hpass.edge, hbase, rfl⟩
  change (edgeStates F st b).mapM (sliceOn Predicate.equals base) = none
  generalize edgeStates F st b = es at hmem
  induction es with
  | nil => exact absurd hmem List.not_mem_nil
  | cons e es ih =>
      rw [List.mapM_cons]
      rcases List.mem_cons.mp hmem with rfl | hmem
      · rw [hself]
        rfl
      · cases sliceOn Predicate.equals base e with
        | none => rfl
        | some c =>
            rw [ih hmem]
            rfl

end OneForAll

end Borealis
