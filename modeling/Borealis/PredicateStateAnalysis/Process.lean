import Borealis.PredicateStateAnalysis.Processed

/-!
# Processing a block keeps the invariant

`process` succeeds on a block whose predecessors are processed exactly when the block is
`Processable`, and then keeps `Good`.  The unreachability check is off here: a block that it takes
for unreachable gets no state, and `finalizeBasicBlock` hands the missing one on.
-/

namespace Borealis

open PredicateState PredicateStateBuilder Lib

variable {F : Function}

namespace OneForAll

variable {P : Pass F}

/-- The entry is not passed through, and neither is a block with a branch in front of it. -/
theorem not_passesThrough_entry (a : Nat) : ¬ PassesThrough F a 0 := fun h =>
  Function.not_edge_entry a h.edge

theorem entrySpec_entry (st : State) : EntrySpec P st 0 F.initialState := by
  have honly : ∀ d, Dominates F.Edge 0 d 0 → d = 0 := fun d hdom =>
    List.mem_singleton.mp (hdom [0] Walk.root)
  refine ⟨Extends.refl, fun d hdom hne => absurd (honly d hdom) hne, ?_,
    fun d _ hdom hne => absurd (honly d hdom) hne, ?_⟩
  · exact (entering_entry _).symm
  · constructor
    · exact fun h => Or.inl ⟨rfl, h⟩
    · rintro (⟨-, h⟩ | ⟨a, hpass, -⟩)
      · exact h
      · exact absurd hpass (not_passesThrough_entry a)

/-- **The state that a processable block is entered in.** -/
theorem BBM_spec {st : State} (hgood : Good P st) {b : Nat}
    (hb : Processable F P.assumeDefectsTriggerOnce b)
    (hpreds : ∀ c, F.Edge c b → (st.basicBlockStates c).isSome = true) :
    ∃ s, BBM P st b = some (some s) ∧ EntrySpec P st b s := by
  rcases eq_or_ne b 0 with rfl | hentry
  · exact ⟨F.initialState, by rw [BBM, P.DT.node_entry], entrySpec_entry st⟩
  obtain ⟨d, hnode, hidom⟩ := P.DT.isIdom b hentry hb.hasWalk
  -- the dominator is processed, because it dominates a predecessor
  obtain ⟨base, hbase⟩ : ∃ base, st.basicBlockStates d = some base := by
    obtain ⟨l, hl⟩ := hb.hasWalk
    cases hl with
    | root => exact absurd rfl hentry
    | step _ hedge =>
        obtain ⟨s, hs⟩ := Option.isSome_iff_exists.mp (hpreds _ hedge)
        obtain ⟨base, hbase, -⟩ := (hgood.blocks _ s hs).dominators d
          (hidom.dominates.of_edge hidom.ne hedge)
        exact ⟨base, hbase⟩
  have hspec := hgood.blocks d base hbase
  obtain ⟨cs, hslices, hne, hall, hlanguage⟩ :=
    slices_spec hgood hentry hb.hasWalk hidom hbase hpreds hb.bare
  -- factoring changes neither the paths nor whether anything is left
  obtain ⟨choices, hchoices, hchoicesNe, htidy, hchoicesLanguage⟩ : ∃ choices,
      (if P.doAggressiveChoiceOptimization then
        optimizeChoices Predicate.equals P.hashMaps .doNotOptimizeSubs (weightAll cs + 1) [] cs
      else some cs) = some choices ∧ choices ≠ [] ∧ (∀ c ∈ choices, c.isTidy = true) ∧
      (choice choices).language = (choice cs).language := by
    cases P.doAggressiveChoiceOptimization with
    | false => exact ⟨cs, rfl, hne, fun c hc => (hall c hc).1, rfl⟩
    | true => exact optimizeChoices_spec Predicate.equals P.hashMaps hne fun c hc => (hall c hc).1
  have hcsTidy := isTidy_factoryChoice hne fun c hc => (hall c hc).1
  have hpartTidy := isTidy_factoryChoice hchoicesNe htidy
  have hnothing : (PredicateStateFactory.choice choices).isEmpty = true ↔
      ∃ a, PassesThrough F a b := by
    rw [isEmpty_eq_of_language_eq hpartTidy hcsTidy (by
      rw [language_factoryChoice, language_factoryChoice, hchoicesLanguage]),
      isEmpty_factoryChoice]
    obtain ⟨c, hc⟩ := List.exists_mem_of_ne_nil cs hne
    exact ⟨fun h => (hall c hc).2.mp (h c hc), fun h c hc => (hall c hc).2.mpr h⟩
  have hgrows := (Grows.add hspec.isTidy hspec.isEmpty_eq_false hpartTidy).congr
    (language_factoryChoice choices) hnothing
  refine ⟨add base (PredicateStateFactory.choice choices), ?_, ?_⟩
  · rw [BBM, hnode]
    simp only [hbase, hslices, Option.bind_some, hchoices, Option.map_some]
    rw [if_neg (by simpa using hchoicesNe)]
  · refine ⟨hspec.built.trans hgrows.built, fun e he hne => ?_, ?_, fun e base' he hne hbr hbase' =>
      ?_, ?_⟩
    · obtain ⟨base', hbase', hbuilt⟩ := hspec.dominators e (hidom.closest e hne he)
      exact ⟨base', hbase', hbuilt.trans hgrows.built⟩
    · rw [hgrows.language, hchoicesLanguage, hlanguage]
    · rcases eq_or_ne e d with rfl | hed
      · obtain rfl : base' = base := Option.some.inj (hbase'.symm.trans hbase)
        refine hgrows.weight_lt fun ⟨a, hpass⟩ => hbr b ?_
        rw [hpass.eq_idom hidom hb.hasWalk hentry]
        exact hpass.terminator
      · exact (hspec.branching e base' (hidom.closest e hne he) hed hbr hbase').trans_le
          (hgrows.built.weight_le hspec.isEmpty_eq_false)
    · by_cases hpass : ∃ a, PassesThrough F a b
      · rw [hgrows.eq hpass, hspec.basic]
        obtain ⟨a, hpass⟩ := hpass
        obtain rfl := hpass.eq_idom hidom hb.hasWalk hentry
        constructor
        · exact fun hbare => Or.inr ⟨d, hpass, hbare⟩
        · rintro (⟨h, -⟩ | ⟨c, hpass', hbare⟩)
          · exact absurd h hentry
          · rwa [hpass'.eq_idom hidom hb.hasWalk hentry]
      · rw [hgrows.built.isBasic_eq_false hspec.isEmpty_eq_false (hgrows.weight_lt hpass)]
        refine ⟨fun h => absurd h Bool.false_ne_true, ?_⟩
        rintro (⟨h, -⟩ | ⟨a, hpass', -⟩)
        · exact absurd h hentry
        · exact absurd ⟨a, hpass'⟩ hpass

/-- A block that is not processable is not entered at all. -/
theorem BBM_eq_none {st : State} (hgood : Good P st) {b : Nat}
    (hb : ¬ Processable F P.assumeDefectsTriggerOnce b)
    (hpreds : ∀ c, F.Edge c b → (st.basicBlockStates c).isSome = true) :
    BBM P st b = none := by
  by_cases hwalk : HasWalk F.Edge 0 b
  · -- slicing fails
    have hsome : ∃ a, PassesThrough F a b ∧ ¬ Bare F P.assumeDefectsTriggerOnce a := by
      by_contra hnone
      refine hb ⟨hwalk, fun a hpass => ?_⟩
      by_contra hbare
      exact hnone ⟨a, hpass, hbare⟩
    obtain ⟨a, hpass, hbare⟩ := hsome
    have hentry : b ≠ 0 := by
      rintro rfl
      exact not_passesThrough_entry a hpass
    obtain ⟨d, hnode, hidom⟩ := P.DT.isIdom b hentry hwalk
    obtain rfl := hpass.eq_idom hidom hwalk hentry
    obtain ⟨base, hbase⟩ := Option.isSome_iff_exists.mp (hpreds d hpass.edge)
    rw [BBM, hnode]
    simp only [hbase, slices_eq_none hgood hentry hwalk hidom hbase hpass hbare, Option.bind_none]
  · rw [BBM, (P.DT.node_eq_none_iff b).mpr hwalk]

/-! ## Recording a block -/

/-- What is recorded for the block, when the state it is entered in is `s`. -/
theorem blockSpec_of_entrySpec {st st' : State} {b : Nat} {s : PredicateState Predicate}
    (h : EntrySpec P st b s)
    (hsame : ∀ d, d ≠ b → st'.basicBlockStates d = st.basicBlockStates d)
    (hself : st'.basicBlockStates b = some (instructionLoop P s (F.block b).instructions).2) :
    BlockSpec P st' b (instructionLoop P s (F.block b).instructions).2 := by
  have hempty := h.built.isEmpty_eq_false F.initialState_nonempty
  have hgrows := grows_instructionLoop P (F.block b).instructions
    (h.built.isTidy F.initialState_isTidy) hempty
  refine ⟨h.built.trans hgrows.built, fun d hd => ?_, ?_, fun d base hd hne hbr hbase => ?_, ?_⟩
  · rcases eq_or_ne d b with rfl | hne
    · exact ⟨_, hself, Extends.refl⟩
    · obtain ⟨base, hbase, hbuilt⟩ := h.dominators d hd hne
      exact ⟨base, (hsame d hne).trans hbase, hbuilt.trans hgrows.built⟩
  · rw [hgrows.language, h.language]
  · exact (h.branching d base hd hne hbr ((hsame d hne).symm.trans hbase)).trans_le
      (hgrows.built.weight_le hempty)
  · by_cases hquiet : Quiet P.assumeDefectsTriggerOnce (F.block b).instructions
    · rw [hgrows.eq hquiet, h.basic]
      constructor
      · rintro (⟨rfl, hbasic⟩ | ⟨a, hpass, hbare⟩)
        · exact Bare.entry hbasic hquiet
        · exact Bare.step hbare hpass hquiet
      · intro hbare
        cases hbare with
        | entry hbasic _ => exact Or.inl ⟨rfl, hbasic⟩
        | step hbare hpass _ => exact Or.inr ⟨_, hpass, hbare⟩
    · rw [hgrows.built.isBasic_eq_false hempty (hgrows.weight_lt hquiet)]
      refine ⟨fun h => absurd h Bool.false_ne_true, fun hbare => ?_⟩
      cases hbare with
      | entry _ hquiet' => exact absurd hquiet' hquiet
      | step _ _ hquiet' => exact absurd hquiet' hquiet

/-- What was recorded for another block is still right. -/
theorem BlockSpec.of_update {st st' : State} {b c : Nat} {s : PredicateState Predicate}
    (h : BlockSpec P st c s) (hnew : st.basicBlockStates b = none)
    (hsame : ∀ d, d ≠ b → st'.basicBlockStates d = st.basicBlockStates d) :
    BlockSpec P st' c s := by
  have hne : ∀ d, Dominates F.Edge 0 d c → d ≠ b := by
    rintro d hd rfl
    obtain ⟨base, hbase, -⟩ := h.dominators d hd
    exact absurd (hbase.symm.trans hnew) (Option.some_ne_none base)
  refine ⟨h.built, fun d hd => ?_, h.language, fun d base hd hdc hbr hbase => ?_, h.basic⟩
  · obtain ⟨base, hbase, hbuilt⟩ := h.dominators d hd
    exact ⟨base, (hsame d (hne d hd)).trans hbase, hbuilt⟩
  · exact h.branching d base hd hdc hbr ((hsame d (hne d hd)).symm.trans hbase)

/-- The states of the instructions are finished one by one. -/
theorem mapM_finalizeState {ts : List (PredicateState Predicate)}
    (hts : ∀ t ∈ ts, t.isTidy = true) :
    ∃ us, ts.mapM (finalizeState P) = some us ∧ us.length = ts.length ∧
      ∀ (k : Nat) (u : PredicateState Predicate), us[k]? = some u →
        ∃ t : PredicateState Predicate, ts[k]? = some t ∧
          u.language = Language.map P.RR t.language := by
  induction ts with
  | nil => exact ⟨[], rfl, rfl, fun k u hu => absurd hu (by simp)⟩
  | cons t ts ih =>
      obtain ⟨u, hu, hlanguage⟩ := finalizeState_spec P (hts t List.mem_cons_self)
      obtain ⟨us, hus, hlength, hall⟩ := ih fun t' ht' => hts t' (List.mem_cons_of_mem t ht')
      refine ⟨u :: us, ?_, congrArg (· + 1) hlength, fun k v hv => ?_⟩
      · rw [List.mapM_cons, hu, hus]
        rfl
      · cases k with
        | zero => exact ⟨t, rfl, Option.some.inj hv ▸ hlanguage⟩
        | succ k => exact hall k v hv

/-- **Processing a block that can be processed keeps the invariant.** -/
theorem process_spec {st : State} (hcheck : P.checkUnreachable = false) (hgood : Good P st)
    {b : Nat} (hnew : st.basicBlockStates b = none)
    (hb : Processable F P.assumeDefectsTriggerOnce b)
    (hpreds : ∀ c, F.Edge c b → (st.basicBlockStates c).isSome = true) :
    ∃ st', process P st b = some st' ∧ Good P st' ∧
      ∀ c, (st'.basicBlockStates c).isSome = true ↔
        c = b ∨ (st.basicBlockStates c).isSome = true := by
  obtain ⟨s, hBBM, hentry⟩ := BBM_spec hgood hb hpreds
  have htidy := hentry.built.isTidy F.initialState_isTidy
  have hempty := hentry.built.isEmpty_eq_false F.initialState_nonempty
  let result := instructionLoop P s (F.block b).instructions
  have hat : ∀ (k : Nat) (t : PredicateState Predicate), result.1[k]? = some t → t.isTidy = true ∧ t.language =
      entering F P.assumeDefectsTriggerOnce b *
        prefixLanguage P.assumeDefectsTriggerOnce (F.block b).instructions k := by
    intro k t ht
    obtain ⟨htTidy, hlanguage⟩ := instructionLoop_getElem P htidy hempty ht
    exact ⟨htTidy, by rw [hlanguage, hentry.language]⟩
  obtain ⟨us, hus, hlength, hall⟩ := @mapM_finalizeState F P result.1 fun t ht => by
    obtain ⟨k, hk⟩ := List.mem_iff_getElem?.mp ht
    exact (hat k t hk).1
  let st' : State :=
    { basicBlockStates := Function.update st.basicBlockStates b (some result.2)
      instructionStates := Function.update st.instructionStates b (some us) }
  have hself : st'.basicBlockStates b = some result.2 := Function.update_self _ _ _
  have hselfI : st'.instructionStates b = some us := Function.update_self _ _ _
  have hsame : ∀ d, d ≠ b → st'.basicBlockStates d = st.basicBlockStates d := fun d hd =>
    Function.update_of_ne hd _ _
  have hsameI : ∀ d, d ≠ b → st'.instructionStates d = st.instructionStates d := fun d hd =>
    Function.update_of_ne hd _ _
  have hrecorded : ∀ c, (st'.basicBlockStates c).isSome = true ↔
      c = b ∨ (st.basicBlockStates c).isSome = true := by
    intro c
    rcases eq_or_ne c b with rfl | hne
    · simp [hself]
    · simp [hsame c hne, hne]
  refine ⟨st', ?_, ⟨fun c => ?_, fun a c hedge hc => ?_, fun c hc => ?_, fun c t ht => ?_,
    fun c ts hts => ?_⟩, hrecorded⟩
  · have hprocess : processBasicBlock P st b = some
        { basicBlockStates := Function.update st.basicBlockStates b (some result.2)
          instructionStates := Function.update st.instructionStates b (some result.1) } := by
      rw [processBasicBlock, hBBM, Option.map_some, hcheck]
      rfl
    rw [process, hprocess, Option.bind_some, finalizeBasicBlock]
    simp only [Function.update_self, Option.bind_some, hus, Option.map_some, Function.update_idem]
    rfl
  · rcases eq_or_ne c b with rfl | hne
    · rw [hself, hselfI]
      rfl
    · rw [hsame c hne, hsameI c hne]
      exact hgood.recorded c
  · rw [hrecorded]
    rcases (hrecorded c).mp hc with rfl | hc
    · exact Or.inr (hpreds a hedge)
    · exact Or.inr (hgood.closed a c hedge hc)
  · rcases (hrecorded c).mp hc with rfl | hc
    · exact hb
    · exact hgood.processable c hc
  · rcases eq_or_ne c b with rfl | hne
    · obtain rfl : result.2 = t := Option.some.inj (hself.symm.trans ht)
      exact blockSpec_of_entrySpec hentry hsame hself
    · exact (hgood.blocks c t ((hsame c hne).symm.trans ht)).of_update hnew hsame
  · rcases eq_or_ne c b with rfl | hne
    · obtain rfl : us = ts := Option.some.inj (hselfI.symm.trans hts)
      refine ⟨hlength.trans (length_instructionLoop P _ _), fun k u hu => ?_⟩
      obtain ⟨t, ht, hlanguage⟩ := hall k u hu
      rw [hlanguage, (hat k t ht).2]
    · exact hgood.instructions c ts ((hsameI c hne).symm.trans hts)

theorem process_eq_none {st : State} (hgood : Good P st) {b : Nat}
    (hb : ¬ Processable F P.assumeDefectsTriggerOnce b)
    (hpreds : ∀ c, F.Edge c b → (st.basicBlockStates c).isSome = true) :
    process P st b = none := by
  rw [process, processBasicBlock, BBM_eq_none hgood hb hpreds]
  rfl

end OneForAll

end Borealis
