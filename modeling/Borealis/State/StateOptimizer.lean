import Borealis.State.Builder
import Borealis.State.Maps

/-!
# Finishing a state

What the analyses do to a state before they hand it out: `StateOptimizer` merges basic states that
follow each other in a chain, and `Retyper` rewrites the predicates one by one.  Both cache the
states they have seen, which changes no result.

`StateOptimizer` casts the state that `Chain` returns to a chain.  `Chain` returns something else
when one of its arguments is empty; the cast is then undefined, and the run is `none` here.  On tidy
states it never happens (`StateOptimizer.transform_spec`).
-/

namespace Borealis

open PredicateState

variable {Pred : Type}

namespace StateOptimizer

theorem nodes_lt_of_merged_left {b b' m' : PredicateState Pred} {data data' : List Pred}
    (hchain : PredicateStateFactory.chain b (basic (data ++ data')) = chain b' m') :
    b'.nodes + m'.nodes < (chain b (basic data)).nodes + (basic data').nodes := by
  unfold PredicateStateFactory.chain at hchain
  split at hchain
  · cases hchain
  · split at hchain
    · rw [hchain]
      simp only [nodes]
      omega
    · obtain ⟨rfl, rfl⟩ := chain.inj hchain
      simp only [nodes]
      omega

theorem nodes_lt_of_merged_right {m b' m' : PredicateState Pred} {data data' : List Pred}
    (hchain : PredicateStateFactory.chain (basic (data ++ data')) m = chain b' m') :
    b'.nodes + m'.nodes < (basic data).nodes + (chain (basic data') m).nodes := by
  unfold PredicateStateFactory.chain at hchain
  split at hchain
  · rw [hchain]
    simp only [nodes]
    omega
  · split at hchain
    · cases hchain
    · obtain ⟨rfl, rfl⟩ := chain.inj hchain
      simp only [nodes]
      omega

/-- `StateOptimizer::transformPredicateStateChain`, on the base and the rest of the chain.  `merge`
joins two basic states and is null for all others. -/
def transformPredicateStateChain :
    PredicateState Pred → PredicateState Pred → Option (PredicateState Pred)
  | basic data, basic data' => some (basic (data ++ data'))
  | chain b (basic data), basic data' =>
    match _hchain : PredicateStateFactory.chain b (basic (data ++ data')) with
    | chain b' m' => transformPredicateStateChain b' m'
    | _ => none
  | basic data, chain (basic data') m =>
    match _hchain : PredicateStateFactory.chain (basic (data ++ data')) m with
    | chain b' m' => transformPredicateStateChain b' m'
    | _ => none
  | base, curr => some (chain base curr)
termination_by base curr => base.nodes + curr.nodes
decreasing_by
  · exact nodes_lt_of_merged_left _hchain
  · exact nodes_lt_of_merged_right _hchain

mutual
/-- `StateOptimizer::transform`. -/
def transform : PredicateState Pred → Option (PredicateState Pred)
  | basic data => some (basic data)
  | chain base curr =>
    (transform base).bind fun base' => (transform curr).bind fun curr' =>
      transformPredicateStateChain base' curr'
  | choice choices => (transformAll choices).map choice

/-- `fmap` over the alternatives of a choice. -/
def transformAll : List (PredicateState Pred) → Option (List (PredicateState Pred))
  | [] => some []
  | c :: cs => (transform c).bind fun c' => (transformAll cs).map fun cs' => c' :: cs'
end

/-- `t` is `s` with some of its basic states merged. -/
structure Merges (s t : PredicateState Pred) : Prop where
  isEmpty_eq : t.isEmpty = s.isEmpty
  isTidy : t.isTidy = true
  language_eq : t.language = s.language

theorem Merges.trans {s t u : PredicateState Pred} (hst : Merges s t) (htu : Merges t u) :
    Merges s u :=
  ⟨htu.isEmpty_eq.trans hst.isEmpty_eq, htu.isTidy, htu.language_eq.trans hst.language_eq⟩

theorem factoryChain_eq {base curr : PredicateState Pred} (hbase : base.isEmpty = false)
    (hcurr : curr.isEmpty = false) : PredicateStateFactory.chain base curr = chain base curr := by
  simp [PredicateStateFactory.chain, hbase, hcurr]

theorem isEmpty_append_eq (data data' : List Pred) :
    (basic (data ++ data')).isEmpty = (chain (basic data) (basic data')).isEmpty := by
  cases data <;> cases data' <;> rfl

/-- The last two of three parts are merged. -/
theorem merges_left {b : PredicateState Pred} {data data' : List Pred}
    (hs : (chain (chain b (basic data)) (basic data')).isTidy = true) :
    PredicateStateFactory.chain b (basic (data ++ data')) = chain b (basic (data ++ data')) ∧
      Merges (chain (chain b (basic data)) (basic data')) (chain b (basic (data ++ data'))) := by
  obtain ⟨-, hdata', hbase, -⟩ := isTidy_chain.mp hs
  obtain ⟨hb, hdata, hbTidy, -⟩ := isTidy_chain.mp hbase
  have hmerged : (basic (data ++ data')).isEmpty = false := by
    rw [isEmpty_append_eq, isEmpty, hdata', Bool.false_and]
  refine ⟨factoryChain_eq hb hmerged, ?_, isTidy_chain.mpr ⟨hb, hmerged, hbTidy, isTidy_basic _⟩,
    ?_⟩
  · rw [isEmpty, hmerged, isEmpty, hdata', Bool.false_and, Bool.false_and]
  · simp only [language_chain, language_basic_append, mul_assoc]

/-- The first two of three parts are merged. -/
theorem merges_right {m : PredicateState Pred} {data data' : List Pred}
    (hs : (chain (basic data) (chain (basic data') m)).isTidy = true) :
    PredicateStateFactory.chain (basic (data ++ data')) m = chain (basic (data ++ data')) m ∧
      Merges (chain (basic data) (chain (basic data') m)) (chain (basic (data ++ data')) m) := by
  obtain ⟨hdata, -, -, hcurr⟩ := isTidy_chain.mp hs
  obtain ⟨hdata', hm, -, hmTidy⟩ := isTidy_chain.mp hcurr
  have hmerged : (basic (data ++ data')).isEmpty = false := by
    rw [isEmpty_append_eq, isEmpty, hdata', Bool.false_and]
  refine ⟨factoryChain_eq hmerged hm, ?_, isTidy_chain.mpr ⟨hmerged, hm, isTidy_basic _, hmTidy⟩,
    ?_⟩
  · simp only [isEmpty, hm, Bool.false_and]
  · simp only [language_chain, language_basic_append, mul_assoc]

/-- **A merged chain has the same paths.** -/
theorem transformPredicateStateChain_spec (base curr : PredicateState Pred)
    (hs : (chain base curr).isTidy = true) :
    ∃ t, transformPredicateStateChain base curr = some t ∧ Merges (chain base curr) t := by
  induction base, curr using transformPredicateStateChain.induct with
  | case1 data data' =>
      refine ⟨basic (data ++ data'), by rw [transformPredicateStateChain], ?_, isTidy_basic _, ?_⟩
      · exact isEmpty_append_eq data data'
      · rw [language_basic_append, language_chain]
  | case2 b data data' b' m' hchain ih =>
      obtain ⟨heq, hmerges⟩ := merges_left hs
      rw [heq] at hchain
      obtain ⟨rfl, rfl⟩ := chain.inj hchain
      obtain ⟨t, ht, htmerges⟩ := ih hmerges.isTidy
      refine ⟨t, ?_, hmerges.trans htmerges⟩
      rw [transformPredicateStateChain]
      split
      · next hagain =>
          rw [heq] at hagain
          obtain ⟨rfl, rfl⟩ := chain.inj hagain
          exact ht
      · next hnot => exact absurd heq (hnot _ _)
  | case3 b data data' hnot => exact absurd (merges_left hs).1 (hnot _ _)
  | case4 data data' m b' m' hchain ih =>
      obtain ⟨heq, hmerges⟩ := merges_right hs
      rw [heq] at hchain
      obtain ⟨rfl, rfl⟩ := chain.inj hchain
      obtain ⟨t, ht, htmerges⟩ := ih hmerges.isTidy
      refine ⟨t, ?_, hmerges.trans htmerges⟩
      rw [transformPredicateStateChain]
      split
      · next hagain =>
          rw [heq] at hagain
          obtain ⟨rfl, rfl⟩ := chain.inj hagain
          exact ht
      · next hnot => exact absurd heq (hnot _ _)
  | case5 data data' m hnot => exact absurd (merges_right hs).1 (hnot _ _)
  | case6 base curr hbasic hleft hright =>
      refine ⟨chain base curr, ?_, rfl, hs, rfl⟩
      rw [transformPredicateStateChain]
      · exact hbasic
      · exact hleft
      · exact hright

theorem transformAll_spec {cs : List (PredicateState Pred)}
    (hcs : ∀ c ∈ cs, ∃ t, transform c = some t ∧ Merges c t) :
    ∃ ts, transformAll cs = some ts ∧ List.Forall₂ Merges cs ts := by
  induction cs with
  | nil => exact ⟨[], by rw [transformAll], List.Forall₂.nil⟩
  | cons c cs ih =>
      obtain ⟨t, ht, hmerges⟩ := hcs c List.mem_cons_self
      obtain ⟨ts, hts, hall⟩ := ih fun d hd => hcs d (List.mem_cons_of_mem c hd)
      exact ⟨t :: ts, by rw [transformAll, ht, hts]; rfl, List.Forall₂.cons hmerges hall⟩

/-- Alternatives merged one by one. -/
theorem merges_choice {cs ts : List (PredicateState Pred)} (hne : cs ≠ [])
    (h : List.Forall₂ Merges cs ts) : Merges (choice cs) (choice ts) := by
  refine ⟨?_, isTidy_choice.mpr ⟨fun hnil => ?_, ?_⟩, ?_⟩
  · rw [isEmpty, isEmpty]
    clear hne
    induction h with
    | nil => rfl
    | cons hmerges _ ih => rw [allEmpty, allEmpty, hmerges.isEmpty_eq, ih]
  · rw [hnil] at h
    cases h
    exact hne rfl
  · clear hne
    induction h with
    | nil => exact fun c hc => absurd hc List.not_mem_nil
    | cons hmerges _ ih => exact List.forall_mem_cons.mpr ⟨hmerges.isTidy, ih⟩
  · clear hne
    induction h with
    | nil => rfl
    | cons hmerges _ ih =>
        rw [language_choice_cons, language_choice_cons, hmerges.language_eq, ih]

/-- **The optimizer always finishes on a tidy state, and keeps its paths.** -/
theorem transform_spec {s : PredicateState Pred} (hs : s.isTidy = true) :
    ∃ t, transform s = some t ∧ Merges s t := by
  induction s using induction with
  | basic data => exact ⟨basic data, by rw [transform], rfl, hs, rfl⟩
  | chain base curr hbase hcurr =>
      obtain ⟨hb, hc, hbTidy, hcTidy⟩ := isTidy_chain.mp hs
      obtain ⟨b, hbEq, hbMerges⟩ := hbase hbTidy
      obtain ⟨c, hcEq, hcMerges⟩ := hcurr hcTidy
      obtain ⟨t, ht, hmerges⟩ := transformPredicateStateChain_spec b c (isTidy_chain.mpr
        ⟨hbMerges.isEmpty_eq.trans hb, hcMerges.isEmpty_eq.trans hc, hbMerges.isTidy,
          hcMerges.isTidy⟩)
      refine ⟨t, by rw [transform, hbEq, hcEq]; exact ht, Merges.trans ⟨?_, ?_, ?_⟩ hmerges⟩
      · rw [isEmpty, isEmpty, hbMerges.isEmpty_eq, hcMerges.isEmpty_eq]
      · exact isTidy_chain.mpr ⟨hbMerges.isEmpty_eq.trans hb, hcMerges.isEmpty_eq.trans hc,
          hbMerges.isTidy, hcMerges.isTidy⟩
      · rw [language_chain, language_chain, hbMerges.language_eq, hcMerges.language_eq]
  | choice choices ih =>
      obtain ⟨hne, hall⟩ := isTidy_choice.mp hs
      obtain ⟨ts, hts, hmerges⟩ := transformAll_spec fun c hc => ih c hc (hall c hc)
      exact ⟨choice ts, by rw [transform, hts]; rfl, merges_choice hne hmerges⟩

end StateOptimizer

/-! ## Rewriting the predicates -/

namespace PredicateState

variable {Pred' : Type}

mutual
/-- `transform` of a transformer that only rewrites predicates, such as `Retyper`. -/
def map (f : Pred → Pred') : PredicateState Pred → PredicateState Pred'
  | basic data => basic (data.map f)
  | chain base curr => chain (map f base) (map f curr)
  | choice choices => choice (mapAll f choices)

/-- `fmap` over the alternatives of a choice. -/
def mapAll (f : Pred → Pred') : List (PredicateState Pred) → List (PredicateState Pred')
  | [] => []
  | c :: cs => map f c :: mapAll f cs
end

theorem mapAll_eq_map (f : Pred → Pred') (cs : List (PredicateState Pred)) :
    mapAll f cs = cs.map (map f) := by
  induction cs with
  | nil => rfl
  | cons c cs ih => rw [mapAll, ih, List.map_cons]

/-- The paths of a rewritten state are the rewritten paths. -/
theorem language_map (f : Pred → Pred') (s : PredicateState Pred) :
    (s.map f).language = Language.map f s.language := by
  induction s using induction with
  | basic data =>
      rw [map, language_basic, language_basic]
      exact (Set.image_singleton).symm
  | chain base curr hbase hcurr =>
      rw [map, language_chain, language_chain, hbase, hcurr, RingHom.map_mul]
  | choice choices ih =>
      rw [map, mapAll_eq_map]
      induction choices with
      | nil =>
          rw [List.map_nil, language_choice_nil, language_choice_nil, RingHom.map_zero]
      | cons c cs ihcs =>
          rw [List.map_cons, language_choice_cons, language_choice_cons, RingHom.map_add,
            ih c List.mem_cons_self, ihcs fun d hd => ih d (List.mem_cons_of_mem c hd)]

end PredicateState

end Borealis
