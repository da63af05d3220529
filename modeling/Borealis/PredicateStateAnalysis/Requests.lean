import Borealis.Lib.Run
import Borealis.PredicateStateAnalysis.Process

/-!
# Asking for instruction states

`getInstructionState` collects the blocks that lead to the one asked for and have no states yet,
and processes them in topological order.  Such a list is a `ReadyOrder`: every block on it is new,
and its predecessors are processed or stand before it.

A request succeeds exactly when every block that leads to the one asked for can be processed
(`getInstructionState_spec`, `getInstructionState_eq_none`), whatever was asked for before.
-/

namespace Borealis

open PredicateState PredicateStateBuilder Lib

variable {F : Function}

/-- `a` leads to `b`. -/
def LeadsTo (F : Function) : Nat → Nat → Prop := Relation.ReflTransGen F.Edge

namespace OneForAll

variable {P : Pass F}

/-! ## The active blocks -/

/-- The predecessors that are still to be looked at. -/
def pending (F : Function) (active : List Nat) : Nat :=
  ∑ b ∈ (Finset.range F.blocks.length).filter (· ∉ active), (F.predecessors b).length

theorem pending_nil : pending F [] = edgeCount F := by
  rw [pending, edgeCount, ← List.sum_toFinset _ List.nodup_range, List.toFinset_range]
  simp

theorem predecessors_eq_nil {b : Nat} (hb : F.blocks.length ≤ b) : F.predecessors b = [] := by
  rw [List.eq_nil_iff_forall_not_mem]
  intro a ha
  exact absurd (Function.edge_lt (Function.mem_predecessors.mp ha)).2 (Nat.not_lt_of_le hb)

/-- Looking at a block uses up its predecessors. -/
theorem pending_cons {active : List Nat} {curr : Nat} (hcurr : curr ∉ active) :
    (F.predecessors curr).length + pending F (curr :: active) ≤ pending F active := by
  have hfilter : (Finset.range F.blocks.length).filter (· ∉ curr :: active) =
      ((Finset.range F.blocks.length).filter (· ∉ active)).erase curr := by
    ext b
    simp only [Finset.mem_filter, Finset.mem_erase, List.mem_cons, not_or]
    tauto
  rw [pending, hfilter]
  by_cases hlt : curr < F.blocks.length
  · have hmem : curr ∈ (Finset.range F.blocks.length).filter (· ∉ active) :=
      Finset.mem_filter.mpr ⟨Finset.mem_range.mpr hlt, hcurr⟩
    exact (Finset.add_sum_erase _ (fun b => (F.predecessors b).length) hmem).le
  · rw [predecessors_eq_nil (Nat.le_of_not_lt hlt), List.length_nil, Nat.zero_add]
    exact Finset.sum_le_sum_of_subset (Finset.erase_subset _ _)

/-- **The collected blocks**: those on the work list, and with a block all its predecessors that
have no states. -/
theorem activeBlocks_spec {st : State} {Q : Nat → Prop}
    (hQ : ∀ a b, Q b → F.Edge a b → st.instructionStates a = none → Q a) {fuel : Nat}
    {working active : List Nat} (hfuel : working.length + pending F active ≤ fuel)
    (hworking : ∀ b ∈ working, Q b) (hactive : ∀ b ∈ active, Q b)
    (hclosed : ∀ b ∈ active, ∀ a, F.Edge a b → st.instructionStates a = none →
      a ∈ active ∨ a ∈ working) :
    ∃ result, activeBlocks F st fuel working active = some result ∧ working ⊆ result ∧
      active ⊆ result ∧ (∀ b ∈ result, Q b) ∧
      ∀ b ∈ result, ∀ a, F.Edge a b → st.instructionStates a = none → a ∈ result := by
  induction fuel generalizing working active with
  | zero =>
      obtain rfl : working = [] := List.eq_nil_of_length_eq_zero (by omega)
      refine ⟨active, rfl, List.nil_subset _, fun _ h => h, hactive, fun b hb a hedge hnone => ?_⟩
      exact (hclosed b hb a hedge hnone).resolve_right List.not_mem_nil
  | succ fuel ih =>
      cases working with
      | nil =>
          refine ⟨active, rfl, List.nil_subset _, fun _ h => h, hactive,
            fun b hb a hedge hnone => ?_⟩
          exact (hclosed b hb a hedge hnone).resolve_right List.not_mem_nil
      | cons curr working =>
          rw [List.length_cons] at hfuel
          rw [List.forall_mem_cons] at hworking
          by_cases hcurr : curr ∈ active
          · rw [activeBlocks, if_pos hcurr]
            obtain ⟨result, hrun, hsub, hsubActive, hall, hresult⟩ :=
              ih (by omega) hworking.2 hactive fun b hb a hedge hnone => by
                rcases hclosed b hb a hedge hnone with ha | ha
                · exact Or.inl ha
                · rcases List.mem_cons.mp ha with rfl | ha
                  · exact Or.inl hcurr
                  · exact Or.inr ha
            exact ⟨result, hrun, List.cons_subset.mpr ⟨hsubActive hcurr, hsub⟩, hsubActive, hall,
              hresult⟩
          · rw [activeBlocks, if_neg hcurr]
            have hpending := pending_cons (F := F) hcurr
            have hlength := List.length_filter_le
              (fun predBB => (st.instructionStates predBB).isNone) (F.predecessors curr)
            obtain ⟨result, hrun, hsub, hsubActive, hall, hresult⟩ := @ih
              (working ++ (F.predecessors curr).filter fun predBB =>
                (st.instructionStates predBB).isNone) (curr :: active)
              (by rw [List.length_append]; omega)
              (fun b hb => by
                rcases List.mem_append.mp hb with hb | hb
                · exact hworking.2 b hb
                · obtain ⟨hb, hnone⟩ := List.mem_filter.mp hb
                  exact hQ b curr hworking.1 (Function.mem_predecessors.mp hb)
                    (Option.isNone_iff_eq_none.mp hnone))
              (List.forall_mem_cons.mpr ⟨hworking.1, hactive⟩)
              (fun b hb a hedge hnone => by
                rcases List.mem_cons.mp hb with rfl | hb
                · refine Or.inr (List.mem_append_right _ (List.mem_filter.mpr ⟨?_, ?_⟩))
                  · exact Function.mem_predecessors.mpr hedge
                  · exact Option.isNone_iff_eq_none.mpr hnone
                · rcases hclosed b hb a hedge hnone with ha | ha
                  · exact Or.inl (List.mem_cons_of_mem curr ha)
                  · rcases List.mem_cons.mp ha with rfl | ha
                    · exact Or.inl List.mem_cons_self
                    · exact Or.inr (List.mem_append_left _ ha))
            refine ⟨result, hrun, List.cons_subset.mpr ⟨?_, ?_⟩, ?_, hall, hresult⟩
            · exact hsubActive List.mem_cons_self
            · exact fun b hb => hsub (List.mem_append_left _ hb)
            · exact fun b hb => hsubActive (List.mem_cons_of_mem curr hb)

/-! ## The order -/

theorem TO_spec (F : Function) : ∃ order, TO F = some order ∧
    TopologicalSorter.Sorted F order ∧ ∀ b < F.blocks.length, b ∈ order := by
  obtain ⟨order, hrun, hsorted, hmem⟩ := TopologicalSorter.doit_spec F
  have hperm : order.Perm (List.range F.blocks.length) :=
    (List.perm_ext_iff_of_nodup hsorted.nodup List.nodup_range).mpr fun b =>
      ⟨fun hb => List.mem_range.mpr (hsorted.lt b hb), fun hb => hmem b (List.mem_range.mp hb)⟩
  have hlength : order.length = F.blocks.length := by rw [hperm.length_eq, List.length_range]
  exact ⟨order, by rw [TO, hrun, Option.bind_some, if_pos hlength], hsorted, hmem⟩

/-- Every block on the list is new when its turn comes, and its predecessors are not. -/
def ReadyOrder (F : Function) : (Nat → Prop) → List Nat → Prop
  | _, [] => True
  | done, b :: rest =>
    ¬ done b ∧ (∀ a, F.Edge a b → done a) ∧ ReadyOrder F (fun c => c = b ∨ done c) rest

/-- What is left of a sorted list, when it holds with a new block all its new predecessors. -/
theorem readyOrder_filter {order : List Nat} (hsorted : TopologicalSorter.Sorted F order)
    {done : Nat → Prop} {active : List Nat} (hnew : ∀ b ∈ active, ¬ done b)
    (hclosed : ∀ b ∈ active, ∀ a, F.Edge a b → done a ∨ a ∈ active) {xs ys : List Nat}
    (horder : order = xs ++ ys) :
    ReadyOrder F (fun c => done c ∨ c ∈ xs ∧ c ∈ active) (ys.filter fun b => active.contains b) := by
  induction ys generalizing xs with
  | nil => trivial
  | cons b ys ih =>
      have hrest := @ih (xs ++ [b]) (by rw [List.append_assoc]; exact horder)
      rw [List.filter_cons]
      split
      · next hmem =>
          have hb : b ∈ active := List.contains_iff_mem.mp hmem
          have hnodup := hsorted.nodup
          rw [horder] at hnodup
          refine ⟨?_, fun a hedge => ?_, ?_⟩
          · rintro (hdone | ⟨hxs, -⟩)
            · exact hnew b hb hdone
            · exact (List.nodup_append.mp hnodup).2.2 b hxs b List.mem_cons_self rfl
          · exact (hclosed b hb a hedge).imp_right fun ha =>
              ⟨hsorted.predecessors xs b ys horder a hedge, ha⟩
          · refine cast (congrArg (fun d => ReadyOrder F d _) (funext fun c => propext ?_)) hrest
            simp only [List.mem_append, List.mem_singleton]
            constructor
            · rintro (h | ⟨h | rfl, hc⟩)
              · exact Or.inr (Or.inl h)
              · exact Or.inr (Or.inr ⟨h, hc⟩)
              · exact Or.inl rfl
            · rintro (rfl | h | ⟨h, hc⟩)
              · exact Or.inr ⟨Or.inr rfl, hb⟩
              · exact Or.inl h
              · exact Or.inr ⟨Or.inl h, hc⟩
      · next hmem =>
          have hb : b ∉ active := fun h => hmem (List.contains_iff_mem.mpr h)
          refine cast (congrArg (fun d => ReadyOrder F d _) (funext fun c => propext ?_)) hrest
          simp only [List.mem_append, List.mem_singleton]
          refine or_congr_right (and_congr_left fun hc => or_iff_left ?_)
          rintro rfl
          exact hb hc

/-- **Processing a ready list** of blocks that can be processed. -/
theorem foldlM_process (hcheck : P.checkUnreachable = false) {l : List Nat} {st : State}
    (hgood : Good P st)
    (hready : ReadyOrder F (fun c => (st.basicBlockStates c).isSome = true) l)
    (hl : ∀ b ∈ l, Processable F P.assumeDefectsTriggerOnce b) :
    ∃ st', l.foldlM (process P) st = some st' ∧ Good P st' ∧
      ∀ c, (st'.basicBlockStates c).isSome = true ↔
        c ∈ l ∨ (st.basicBlockStates c).isSome = true := by
  induction l generalizing st with
  | nil => exact ⟨st, rfl, hgood, fun c => (or_iff_right List.not_mem_nil).symm⟩
  | cons b rest ih =>
      obtain ⟨hnew, hpreds, hrest⟩ := hready
      rw [List.forall_mem_cons] at hl
      obtain ⟨mid, hmid, hmidGood, hmidIff⟩ := process_spec hcheck hgood
        (Option.not_isSome_iff_eq_none.mp hnew) hl.1 hpreds
      obtain ⟨st', hrun, hgood', hiff⟩ := ih hmidGood
        (by simpa only [hmidIff] using hrest) hl.2
      refine ⟨st', ?_, hgood', fun c => ?_⟩
      · rw [List.foldlM_cons, hmid]
        exact hrun
      · rw [hiff, hmidIff, List.mem_cons, or_left_comm, or_assoc]

/-- A ready list with a block that cannot be processed is not finished. -/
theorem foldlM_process_eq_none (hcheck : P.checkUnreachable = false) {l : List Nat} {st : State}
    (hgood : Good P st)
    (hready : ReadyOrder F (fun c => (st.basicBlockStates c).isSome = true) l)
    (hl : ∃ b ∈ l, ¬ Processable F P.assumeDefectsTriggerOnce b) :
    l.foldlM (process P) st = none := by
  induction l generalizing st with
  | nil =>
      obtain ⟨b, hb, -⟩ := hl
      exact absurd hb List.not_mem_nil
  | cons b rest ih =>
      obtain ⟨hnew, hpreds, hrest⟩ := hready
      rw [List.foldlM_cons]
      by_cases hb : Processable F P.assumeDefectsTriggerOnce b
      · obtain ⟨mid, hmid, hmidGood, hmidIff⟩ := process_spec hcheck hgood
          (Option.not_isSome_iff_eq_none.mp hnew) hb hpreds
        rw [hmid]
        refine ih hmidGood (by simpa only [hmidIff] using hrest) ?_
        obtain ⟨c, hc, hnot⟩ := hl
        rcases List.mem_cons.mp hc with rfl | hc
        · exact absurd hb hnot
        · exact ⟨c, hc, hnot⟩
      · rw [process_eq_none hgood hb hpreds]
        rfl

/-! ## A request -/

theorem Good.instructionStates_eq_none_iff {st : State} (hgood : Good P st) (b : Nat) :
    st.instructionStates b = none ↔ st.basicBlockStates b = none := by
  rw [← Option.not_isSome_iff_eq_none, ← Option.not_isSome_iff_eq_none, hgood.recorded b]

/-- What leads to a processed block is processed. -/
theorem Good.of_leadsTo {st : State} (hgood : Good P st) {a b : Nat} (h : LeadsTo F a b)
    (hb : (st.basicBlockStates b).isSome = true) : (st.basicBlockStates a).isSome = true := by
  induction h with
  | refl => exact hb
  | tail _ hedge ih => exact ih (hgood.closed _ _ hedge hb)

/-- The blocks that are processed for a request: new blocks that lead to the one asked for, and
all of them unless some were processed before. -/
theorem exists_order {st : State} (hgood : Good P st) {b : Nat}
    (hb : st.basicBlockStates b = none) :
    ∃ l active order, activeBlocks F st (edgeCount F + 1) [b] [] = some active ∧
      TO F = some order ∧ (order.filter fun c => active.contains c) = l ∧
      ReadyOrder F (fun c => (st.basicBlockStates c).isSome = true) l ∧
      (∀ c ∈ l, LeadsTo F c b) ∧
      ∀ c < F.blocks.length, LeadsTo F c b → c ∈ l ∨ (st.basicBlockStates c).isSome = true := by
  obtain ⟨active, hactive, hsub, -, hall, hclosed⟩ :
      ∃ result, activeBlocks F st (edgeCount F + 1) [b] [] = some result ∧ [b] ⊆ result ∧
        [] ⊆ result ∧ (∀ c ∈ result, LeadsTo F c b ∧ st.basicBlockStates c = none) ∧
        ∀ c ∈ result, ∀ a, F.Edge a c → st.instructionStates a = none → a ∈ result := by
    refine activeBlocks_spec (fun a c hc hedge hnone => ?_) ?_ (fun c hc => ?_)
      (fun c hc => absurd hc List.not_mem_nil) (fun c hc => absurd hc List.not_mem_nil)
    · exact ⟨Relation.ReflTransGen.head hedge hc.1,
        (hgood.instructionStates_eq_none_iff a).mp hnone⟩
    · rw [pending_nil, List.length_singleton, Nat.add_comm]
    · rw [List.mem_singleton.mp hc]
      exact ⟨Relation.ReflTransGen.refl, hb⟩
  obtain ⟨order, horder, hsorted, hmem⟩ := TO_spec F
  have hnone : ∀ c, st.basicBlockStates c = none → st.instructionStates c = none := fun c =>
    (hgood.instructionStates_eq_none_iff c).mpr
  refine ⟨_, active, order, hactive, horder, rfl, ?_, fun c hc => ?_, fun c hlt hleads => ?_⟩
  · have hready := @readyOrder_filter F order hsorted
      (fun c => (st.basicBlockStates c).isSome = true) active
      (fun c hc => Option.not_isSome_iff_eq_none.mpr (hall c hc).2)
      (fun c hc a hedge => by
        rcases ha : st.basicBlockStates a with _ | s
        · exact Or.inr (hclosed c hc a hedge (hnone a ha))
        · exact Or.inl rfl) [] order rfl
    simpa only [List.not_mem_nil, false_and, or_false] using hready
  · exact (hall c (List.contains_iff_mem.mp (List.mem_filter.mp hc).2)).1
  · rcases hc : st.basicBlockStates c with _ | s
    · left
      refine List.mem_filter.mpr ⟨hmem c hlt, List.contains_iff_mem.mpr ?_⟩
      -- all blocks on the way are new as well
      clear hlt
      induction hleads using Relation.ReflTransGen.head_induction_on with
      | refl => exact hsub List.mem_cons_self
      | head hedge _ ih =>
          refine hclosed _ (ih ?_) _ hedge (hnone _ hc)
          by_contra hsome
          have := hgood.closed _ _ hedge (Option.isSome_iff_ne_none.mpr hsome)
          rw [hc] at this
          cases this
    · exact Or.inr rfl

/-- **A request for a block that only processable blocks lead to.** -/
theorem getInstructionState_spec (hcheck : P.checkUnreachable = false) {st : State}
    (hgood : Good P st) {b k : Nat} (hk : k < (F.block b).instructions.length)
    (hb : ∀ c, LeadsTo F c b → Processable F P.assumeDefectsTriggerOnce c)
    (hlt : b < F.blocks.length) :
    ∃ st' s, getInstructionState P st b k = some (st', s) ∧
      s.language = Language.map P.RR (entering F P.assumeDefectsTriggerOnce b *
        prefixLanguage P.assumeDefectsTriggerOnce (F.block b).instructions k) := by
  have hrecorded : ∀ st', Good P st' → ∀ states, st'.instructionStates b = some states →
      ∃ s, states[k]? = some s ∧ s.language = Language.map P.RR
        (entering F P.assumeDefectsTriggerOnce b *
          prefixLanguage P.assumeDefectsTriggerOnce (F.block b).instructions k) := by
    intro st' hgood' states hstates
    obtain ⟨hlength, hlanguage⟩ := hgood'.instructions b states hstates
    have hk' : k < states.length := hlength ▸ hk
    exact ⟨states[k], List.getElem?_eq_getElem hk', hlanguage k _ (List.getElem?_eq_getElem hk')⟩
  rcases hstates : st.instructionStates b with _ | states
  · obtain ⟨l, active, order, hactive, horder, hl, hready, hleads, hall⟩ :=
      exists_order hgood ((hgood.instructionStates_eq_none_iff b).mp hstates)
    obtain ⟨st', hrun, hgood', hiff⟩ :=
      foldlM_process hcheck hgood hready fun c hc => hb c (hleads c hc)
    have hbRecorded : (st'.instructionStates b).isSome = true := by
      rw [hgood'.recorded b, hiff b]
      exact hall b hlt Relation.ReflTransGen.refl
    obtain ⟨states, hstates'⟩ := Option.isSome_iff_exists.mp hbRecorded
    obtain ⟨s, hs, hlanguage⟩ := hrecorded st' hgood' states hstates'
    refine ⟨st', s, ?_, hlanguage⟩
    simp only [getInstructionState, hstates, hactive, horder, hl, hrun, hstates', hs,
      Option.bind_some, Option.map_some]
  · obtain ⟨s, hs, hlanguage⟩ := hrecorded st hgood states hstates
    refine ⟨st, s, ?_, hlanguage⟩
    simp only [getInstructionState, hstates, hs, Option.map_some]

/-- **A request for a block that some other block leads to** does not succeed. -/
theorem getInstructionState_eq_none (hcheck : P.checkUnreachable = false) {st : State}
    (hgood : Good P st) {b c : Nat} (hleads : LeadsTo F c b)
    (hc : ¬ Processable F P.assumeDefectsTriggerOnce c) (hlt : b < F.blocks.length) (k : Nat) :
    getInstructionState P st b k = none := by
  have hnew : ∀ d, LeadsTo F c d → st.basicBlockStates d = none := by
    intro d hd
    by_contra hsome
    exact hc (hgood.processable c (hgood.of_leadsTo hd (Option.isSome_iff_ne_none.mpr hsome)))
  have hcnone := hnew c Relation.ReflTransGen.refl
  have hclt : c < F.blocks.length := by
    rcases Relation.ReflTransGen.cases_head hleads with rfl | ⟨d, hedge, -⟩
    · exact hlt
    · exact (Function.edge_lt hedge).1
  obtain ⟨l, active, order, hactive, horder, hl, hready, -, hall⟩ := exists_order hgood (hnew b hleads)
  have hmem : c ∈ l := by
    rcases hall c hclt hleads with hmem | hsome
    · exact hmem
    · rw [hcnone] at hsome
      cases hsome
  have hrun := foldlM_process_eq_none hcheck hgood hready ⟨c, hmem, hc⟩
  have hstates := (hgood.instructionStates_eq_none_iff b).mpr (hnew b hleads)
  simp only [getInstructionState, hstates, hactive, horder, hl, hrun, Option.bind_some,
    Option.bind_none]

/-! ## Runs -/

variable (P) in
/-- What a request does to the fields. -/
def ask (st : State) (request : Nat × Nat) : Option State :=
  (getInstructionState P st request.1 request.2).map Prod.fst

variable (P) in
/-- The fields after some requests. -/
def Asked (st : State) : Prop := Lib.Reachable (ask P) (fun _ _ => True) State.init st

/-- A request keeps the invariant. -/
theorem Good.ask (hcheck : P.checkUnreachable = false) {st st' : State} (hgood : Good P st)
    {request : Nat × Nat} (hask : ask P st request = some st') : Good P st' := by
  obtain ⟨b, k⟩ := request
  obtain ⟨⟨st'', s⟩, hrun, rfl⟩ := Option.map_eq_some_iff.mp hask
  rcases hstates : st.instructionStates b with _ | states
  · obtain ⟨l, active, order, hactive, horder, hl, hready, -, -⟩ :=
      exists_order hgood ((hgood.instructionStates_eq_none_iff b).mp hstates)
    simp only [getInstructionState, hstates, hactive, horder, hl, Option.bind_some] at hrun
    obtain ⟨st₁, hfold, hrun⟩ := Option.bind_eq_some_iff.mp hrun
    have hall : ∀ c ∈ l, Processable F P.assumeDefectsTriggerOnce c := by
      intro c hc
      by_contra hnot
      rw [foldlM_process_eq_none hcheck hgood hready ⟨c, hc, hnot⟩] at hfold
      cases hfold
    obtain ⟨st₂, hfold', hgood', -⟩ := foldlM_process hcheck hgood hready hall
    obtain rfl : st₂ = st₁ := Option.some.inj (hfold'.symm.trans hfold)
    obtain ⟨states, -, hrun⟩ := Option.bind_eq_some_iff.mp hrun
    obtain ⟨s', -, heq⟩ := Option.map_eq_some_iff.mp hrun
    obtain ⟨rfl, rfl⟩ := Prod.mk.inj heq
    exact hgood'
  · simp only [getInstructionState, hstates] at hrun
    obtain ⟨s', -, heq⟩ := Option.map_eq_some_iff.mp hrun
    obtain ⟨rfl, rfl⟩ := Prod.mk.inj heq
    exact hgood

/-- **The invariant holds after any requests, in any order.** -/
theorem Asked.good (hcheck : P.checkUnreachable = false) {st : State} (h : Asked P st) :
    Good P st :=
  h.invariant good_init fun _ _ _ hgood _ hask => hgood.ask hcheck hask

end OneForAll

end Borealis
