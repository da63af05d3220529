import Borealis.State.StateOptimizer

/-!
# Visited loci in the optimizer

A basic state carries the loci that were visited when it was built, and `getVisited` collects them.
`StateOptimizer` is modelled here once more on states with loci, and on all of them, tidy or not;
without the loci it is the pass of `Borealis.State.StateOptimizer` (`transform_erase`).

The parts of a chain are optimized first, so that the pass meets only chains in which nothing is
left to merge (`Settled`).  On them one call of `transformPredicateStateChain` merges at most once
(`transformPredicateStateChain_eq_join`), and what becomes of it can be read off the two parts:

* it is undefined where the factory leaves out a part and returns something that is no chain
  (`Joins`);
* it keeps all paths;
* it loses the loci of the basic states it merges, because `merge` builds a new one from the data
  alone (`lostBy`).
-/

namespace Borealis

variable {Pred Locus : Type}

/-- `PredicateState` with the loci of its basic states. -/
inductive LocatedState (Pred Locus : Type) where
  | basic (data : List Pred) (loci : List Locus)
  | chain (base curr : LocatedState Pred Locus)
  | choice (choices : List (LocatedState Pred Locus))

namespace LocatedState

/-- Induction over states in which a choice hands over the hypothesis for each of its
alternatives. -/
theorem induction {motive : LocatedState Pred Locus → Prop}
    (basic : ∀ data loci, motive (.basic data loci))
    (chain : ∀ base curr, motive base → motive curr → motive (.chain base curr))
    (choice : ∀ choices, (∀ c ∈ choices, motive c) → motive (.choice choices))
    (s : LocatedState Pred Locus) : motive s :=
  @LocatedState.rec Pred Locus motive (fun choices => ∀ c ∈ choices, motive c)
    basic chain choice (by simp)
    (fun head tail hhead htail c hc => by
      rcases List.mem_cons.mp hc with rfl | hc
      · exact hhead
      · exact htail c hc) s

/-! ## Loci and predicates -/

mutual
/-- `getVisited` of the three classes. -/
def getVisited : LocatedState Pred Locus → List Locus
  | basic _ loci => loci
  | chain base curr => getVisited base ++ getVisited curr
  | choice choices => getVisitedAll choices

/-- The loci of all alternatives of a choice. -/
def getVisitedAll : List (LocatedState Pred Locus) → List Locus
  | [] => []
  | c :: cs => getVisited c ++ getVisitedAll cs
end

mutual
/-- The state without its loci. -/
def erase : LocatedState Pred Locus → PredicateState Pred
  | basic data _ => .basic data
  | chain base curr => .chain (erase base) (erase curr)
  | choice choices => .choice (eraseAll choices)

/-- The same for every alternative of a choice. -/
def eraseAll : List (LocatedState Pred Locus) → List (PredicateState Pred)
  | [] => []
  | c :: cs => erase c :: eraseAll cs
end

/-- `isEmpty`, which looks at the predicates only. -/
def isEmpty (s : LocatedState Pred Locus) : Bool :=
  s.erase.isEmpty

/-- The predicate paths of a state. -/
def language (s : LocatedState Pred Locus) : Language Pred :=
  s.erase.language

/-- The state is a `PredicateStateChain`. -/
def isChain : LocatedState Pred Locus → Bool
  | chain _ _ => true
  | _ => false

@[simp] theorem isEmpty_basic (data : List Pred) (loci : List Locus) :
    (basic data loci).isEmpty = data.isEmpty := rfl

@[simp] theorem language_chain (base curr : LocatedState Pred Locus) :
    (chain base curr).language = base.language * curr.language := by
  simp only [language, erase, PredicateState.language_chain]

theorem language_basic_append (data rest : List Pred) (loci loci' loci'' : List Locus) :
    (basic (data ++ rest) loci).language =
      (basic data loci').language * (basic rest loci'').language :=
  PredicateState.language_basic_append data rest

@[simp] theorem language_basic_nil (loci : List Locus) :
    (basic [] loci : LocatedState Pred Locus).language = 1 :=
  PredicateState.language_basic_nil

@[simp] theorem language_choice_nil :
    (choice [] : LocatedState Pred Locus).language = 0 :=
  PredicateState.language_choice_nil

theorem language_choice_cons (c : LocatedState Pred Locus) (cs : List (LocatedState Pred Locus)) :
    (choice (c :: cs)).language = c.language + (choice cs).language :=
  PredicateState.language_choice_cons c.erase (eraseAll cs)

/-! ## The pass -/

/-- `PredicateStateFactory::Chain`. -/
def factoryChain (base curr : LocatedState Pred Locus) : LocatedState Pred Locus :=
  if base.isEmpty then curr
  else if curr.isEmpty then base
  else chain base curr

theorem nodes_lt_of_merged_left {b b' m' : LocatedState Pred Locus} {data data' : List Pred}
    {loci loci' loci'' : List Locus}
    (hchain : factoryChain b (basic (data ++ data') loci'') = chain b' m') :
    b'.erase.nodes + m'.erase.nodes <
      (chain b (basic data loci)).erase.nodes + (basic data' loci').erase.nodes := by
  unfold factoryChain at hchain
  split at hchain
  · cases hchain
  · split at hchain
    · rw [hchain]
      simp only [erase, PredicateState.nodes]
      omega
    · obtain ⟨rfl, rfl⟩ := chain.inj hchain
      simp only [erase, PredicateState.nodes]
      omega

theorem nodes_lt_of_merged_right {m b' m' : LocatedState Pred Locus} {data data' : List Pred}
    {loci loci' loci'' : List Locus}
    (hchain : factoryChain (basic (data ++ data') loci'') m = chain b' m') :
    b'.erase.nodes + m'.erase.nodes <
      (basic data loci).erase.nodes + (chain (basic data' loci') m).erase.nodes := by
  unfold factoryChain at hchain
  split at hchain
  · rw [hchain]
    simp only [erase, PredicateState.nodes]
    omega
  · split at hchain
    · cases hchain
    · obtain ⟨rfl, rfl⟩ := chain.inj hchain
      simp only [erase, PredicateState.nodes]
      omega

/-- `StateOptimizer::transformPredicateStateChain`, on the base and the rest of the chain.  `merge`
joins the data of two basic states into one without loci. -/
def transformPredicateStateChain :
    LocatedState Pred Locus → LocatedState Pred Locus → Option (LocatedState Pred Locus)
  | basic data _, basic data' _ => some (basic (data ++ data') [])
  | chain b (basic data _), basic data' _ =>
    match _hchain : factoryChain b (basic (data ++ data') []) with
    | chain b' m' => transformPredicateStateChain b' m'
    | _ => none
  | basic data _, chain (basic data' _) m =>
    match _hchain : factoryChain (basic (data ++ data') []) m with
    | chain b' m' => transformPredicateStateChain b' m'
    | _ => none
  | base, curr => some (chain base curr)
termination_by base curr => base.erase.nodes + curr.erase.nodes
decreasing_by
  · exact nodes_lt_of_merged_left _hchain
  · exact nodes_lt_of_merged_right _hchain

mutual
/-- `StateOptimizer::transform`. -/
def transform : LocatedState Pred Locus → Option (LocatedState Pred Locus)
  | basic data loci => some (basic data loci)
  | chain base curr =>
    (transform base).bind fun base' => (transform curr).bind fun curr' =>
      transformPredicateStateChain base' curr'
  | choice choices => (transformAll choices).map choice

/-- `fmap` over the alternatives of a choice. -/
def transformAll :
    List (LocatedState Pred Locus) → Option (List (LocatedState Pred Locus))
  | [] => some []
  | c :: cs => (transform c).bind fun c' => (transformAll cs).map fun cs' => c' :: cs'
end

/-! ## The loci do not steer the pass -/

theorem factoryChain_erase (base curr : LocatedState Pred Locus) :
    (factoryChain base curr).erase = PredicateStateFactory.chain base.erase curr.erase := by
  unfold factoryChain PredicateStateFactory.chain isEmpty
  split
  · rfl
  · split
    · rfl
    · rw [erase]

theorem eq_basic_of_erase {s : LocatedState Pred Locus} {data : List Pred}
    (h : s.erase = .basic data) : ∃ loci, s = basic data loci := by
  cases s with
  | basic data' loci =>
      rw [erase] at h
      exact ⟨loci, by rw [PredicateState.basic.inj h]⟩
  | chain base curr => simp [erase] at h
  | choice choices => simp [erase] at h

theorem eq_chain_of_erase {s : LocatedState Pred Locus} {b m : PredicateState Pred}
    (h : s.erase = .chain b m) : ∃ base curr, s = chain base curr ∧ base.erase = b ∧
      curr.erase = m := by
  cases s with
  | basic data loci => simp [erase] at h
  | chain base curr =>
      rw [erase] at h
      exact ⟨base, curr, rfl, PredicateState.chain.inj h⟩
  | choice choices => simp [erase] at h

/-- Without the loci one call is the optimizer's. -/
theorem transformPredicateStateChain_erase (base curr : LocatedState Pred Locus) :
    (transformPredicateStateChain base curr).map erase =
      StateOptimizer.transformPredicateStateChain base.erase curr.erase := by
  induction base, curr using transformPredicateStateChain.induct with
  | case1 data loci data' loci' =>
      rw [transformPredicateStateChain, erase, erase, StateOptimizer.transformPredicateStateChain,
        Option.map_some, erase]
  | case2 b data loci data' loci' b' m' hchain ih =>
      have herase := congrArg erase hchain
      rw [factoryChain_erase, erase, erase] at herase
      rw [transformPredicateStateChain, erase, erase, erase,
        StateOptimizer.transformPredicateStateChain]
      split
      · next hfactory =>
          obtain ⟨rfl, rfl⟩ := chain.inj (hchain.symm.trans hfactory)
          split
          · next hfactory' =>
              obtain ⟨rfl, rfl⟩ := PredicateState.chain.inj (herase.symm.trans hfactory')
              exact ih
          · next hno => exact absurd herase (hno _ _)
      · next hno => exact absurd hchain (hno _ _)
  | case3 b data loci data' loci' hno =>
      rw [transformPredicateStateChain, erase, erase, erase,
        StateOptimizer.transformPredicateStateChain]
      split
      · next hfactory => exact absurd hfactory (hno _ _)
      · split
        · next hfactory' =>
            obtain ⟨b', m', hchain, -⟩ :=
              eq_chain_of_erase ((factoryChain_erase b (basic (data ++ data') [])).trans hfactory')
            exact absurd hchain (hno b' m')
        · rfl
  | case4 data loci data' loci' m b' m' hchain ih =>
      have herase := congrArg erase hchain
      rw [factoryChain_erase, erase, erase] at herase
      rw [transformPredicateStateChain, erase, erase, erase,
        StateOptimizer.transformPredicateStateChain]
      split
      · next hfactory =>
          obtain ⟨rfl, rfl⟩ := chain.inj (hchain.symm.trans hfactory)
          split
          · next hfactory' =>
              obtain ⟨rfl, rfl⟩ := PredicateState.chain.inj (herase.symm.trans hfactory')
              exact ih
          · next hno => exact absurd herase (hno _ _)
      · next hno => exact absurd hchain (hno _ _)
  | case5 data loci data' loci' m hno =>
      rw [transformPredicateStateChain, erase, erase, erase,
        StateOptimizer.transformPredicateStateChain]
      split
      · next hfactory => exact absurd hfactory (hno _ _)
      · split
        · next hfactory' =>
            obtain ⟨b', m', hchain, -⟩ :=
              eq_chain_of_erase ((factoryChain_erase (basic (data ++ data') []) m).trans hfactory')
            exact absurd hchain (hno b' m')
        · rfl
  | case6 base curr hbasic hleft hright =>
      rw [transformPredicateStateChain, StateOptimizer.transformPredicateStateChain,
        Option.map_some, erase]
      · intro data data' hbase hcurr
        obtain ⟨loci, rfl⟩ := eq_basic_of_erase hbase
        obtain ⟨loci', rfl⟩ := eq_basic_of_erase hcurr
        exact hbasic data loci data' loci' rfl rfl
      · intro b data data' hbase hcurr
        obtain ⟨b', m', rfl, -, hm⟩ := eq_chain_of_erase hbase
        obtain ⟨loci, rfl⟩ := eq_basic_of_erase hm
        obtain ⟨loci', rfl⟩ := eq_basic_of_erase hcurr
        exact hleft b' data loci data' loci' rfl rfl
      · intro data data' m hbase hcurr
        obtain ⟨b', m', rfl, hb, -⟩ := eq_chain_of_erase hcurr
        obtain ⟨loci, rfl⟩ := eq_basic_of_erase hbase
        obtain ⟨loci', rfl⟩ := eq_basic_of_erase hb
        exact hright data loci data' loci' m' rfl rfl
      · exact hbasic
      · exact hleft
      · exact hright

/-- **The pass on states with loci is the optimizer's, once the loci are left out.** -/
theorem transform_erase (s : LocatedState Pred Locus) :
    (transform s).map erase = StateOptimizer.transform s.erase := by
  induction s using induction with
  | basic data loci => rfl
  | chain base curr hbase hcurr =>
      rw [transform, erase, StateOptimizer.transform, ← hbase, ← hcurr]
      cases transform base with
      | none => rfl
      | some base' =>
          cases transform curr with
          | none => rfl
          | some curr' => exact transformPredicateStateChain_erase base' curr'
  | choice choices ih =>
      have hall : (transformAll choices).map eraseAll =
          StateOptimizer.transformAll (eraseAll choices) := by
        induction choices with
        | nil => rfl
        | cons c cs ihcs =>
            rw [transformAll, eraseAll, StateOptimizer.transformAll,
              ← ih c List.mem_cons_self, ← ihcs fun c hc => ih c (List.mem_cons_of_mem _ hc)]
            cases transform c with
            | none => rfl
            | some c' =>
                cases transformAll cs with
                | none => rfl
                | some cs' => rfl
      rw [transform, erase, StateOptimizer.transform, ← hall, Option.map_map, Option.map_map]
      rfl

/-! ## One call of the pass -/

/-- The pass leaves a chain of the two states as it is. -/
def Apart : LocatedState Pred Locus → LocatedState Pred Locus → Prop
  | basic _ _, basic _ _ => False
  | chain _ (basic _ _), basic _ _ => False
  | basic _ _, chain (basic _ _) _ => False
  | _, _ => True

/-- In the chains of the state nothing is left to merge. -/
def Settled : LocatedState Pred Locus → Prop
  | chain base curr => Settled base ∧ Settled curr ∧ Apart base curr
  | _ => True

/-- What the pass makes of a chain of two settled states. -/
def join : LocatedState Pred Locus → LocatedState Pred Locus → Option (LocatedState Pred Locus)
  | basic data _, basic data' _ => some (basic (data ++ data') [])
  | chain b (basic data _), basic data' _ =>
    let res := factoryChain b (basic (data ++ data') [])
    if res.isChain then some res else none
  | basic data _, chain (basic data' _) m =>
    let res := factoryChain (basic (data ++ data') []) m
    if res.isChain then some res else none
  | base, curr => some (chain base curr)

/-- The cast to a chain is right: neither part of a merged chain is left out, unless it is the
merged state and the other part is a chain. -/
def Joins : LocatedState Pred Locus → LocatedState Pred Locus → Prop
  | chain b (basic data _), basic data' _ =>
    b.isEmpty = false ∧ (data ++ data' = [] → b.isChain = true)
  | basic data _, chain (basic data' _) m =>
    if data ++ data' = [] then m.isChain = true else m.isEmpty = false
  | _, _ => True

/-- The loci of the basic states that are merged. -/
def lostBy : LocatedState Pred Locus → LocatedState Pred Locus → List Locus
  | basic _ loci, basic _ loci' => loci ++ loci'
  | chain _ (basic _ loci), basic _ loci' => loci ++ loci'
  | basic _ loci, chain (basic _ loci') _ => loci ++ loci'
  | _, _ => []

/-- The loci of everything else. -/
def keptBy : LocatedState Pred Locus → LocatedState Pred Locus → List Locus
  | basic _ _, basic _ _ => []
  | chain b (basic _ _), basic _ _ => b.getVisited
  | basic _ _, chain (basic _ _) m => m.getVisited
  | base, curr => base.getVisited ++ curr.getVisited

theorem transformPredicateStateChain_of_apart {base curr : LocatedState Pred Locus}
    (h : Apart base curr) : transformPredicateStateChain base curr = some (chain base curr) := by
  rw [transformPredicateStateChain]
  · rintro data loci data' loci' rfl rfl
    exact h
  · rintro b data loci data' loci' rfl rfl
    exact h
  · rintro data loci data' loci' m rfl rfl
    exact h

/-- What a settled chain ends with is merged without anything else becoming mergeable. -/
theorem transformPredicateStateChain_merged_left {b : LocatedState Pred Locus}
    {data data' : List Pred} {loci : List Locus} (hb : Settled b)
    (happart : Apart b (basic data loci))
    {res : LocatedState Pred Locus} (hres : factoryChain b (basic data' []) = res)
    {b' m' : LocatedState Pred Locus} (hchain : res = chain b' m') :
    transformPredicateStateChain b' m' = some res := by
  subst hchain
  unfold factoryChain at hres
  split at hres
  · cases hres
  · split at hres
    · subst hres
      exact transformPredicateStateChain_of_apart hb.2.2
    · obtain ⟨rfl, rfl⟩ := chain.inj hres
      refine transformPredicateStateChain_of_apart ?_
      cases b with
      | basic data loci => exact happart
      | chain x y => cases y <;> exact happart
      | choice cs => exact trivial

theorem transformPredicateStateChain_merged_right {m : LocatedState Pred Locus}
    {data data' : List Pred} {loci : List Locus} (hm : Settled m)
    (happart : Apart (basic data loci) m)
    {res : LocatedState Pred Locus} (hres : factoryChain (basic data' []) m = res)
    {b' m' : LocatedState Pred Locus} (hchain : res = chain b' m') :
    transformPredicateStateChain b' m' = some res := by
  subst hchain
  unfold factoryChain at hres
  split at hres
  · subst hres
    exact transformPredicateStateChain_of_apart hm.2.2
  · split at hres
    · cases hres
    · obtain ⟨rfl, rfl⟩ := chain.inj hres
      refine transformPredicateStateChain_of_apart ?_
      cases m with
      | basic data loci => exact happart
      | chain x y => cases x <;> exact happart
      | choice cs => exact trivial

/-- **On settled parts one call merges at most once.** -/
theorem transformPredicateStateChain_eq_join {base curr : LocatedState Pred Locus}
    (hbase : Settled base) (hcurr : Settled curr) :
    transformPredicateStateChain base curr = join base curr := by
  induction base, curr using transformPredicateStateChain.induct with
  | case1 data loci data' loci' => rw [transformPredicateStateChain, join]
  | case2 b data loci data' loci' b' m' hchain _ =>
      rw [transformPredicateStateChain, join, hchain]
      split
      · next hagain =>
          obtain ⟨rfl, rfl⟩ := chain.inj hagain
          rw [transformPredicateStateChain_merged_left hbase.1 hbase.2.2 hchain rfl]
          rfl
      · next hnot => exact absurd rfl (hnot _ _)
  | case3 b data loci data' loci' hnot =>
      rw [transformPredicateStateChain, join]
      split
      · next hchain => exact absurd hchain (hnot _ _)
      · cases hres : factoryChain b (basic (data ++ data') []) with
        | basic data loci => rfl
        | chain b' m' => exact absurd hres (hnot _ _)
        | choice cs => rfl
  | case4 data loci data' loci' m b' m' hchain _ =>
      rw [transformPredicateStateChain, join, hchain]
      split
      · next hagain =>
          obtain ⟨rfl, rfl⟩ := chain.inj hagain
          rw [transformPredicateStateChain_merged_right hcurr.2.1 hcurr.2.2 hchain rfl]
          rfl
      · next hnot => exact absurd rfl (hnot _ _)
  | case5 data loci data' loci' m hnot =>
      rw [transformPredicateStateChain, join]
      split
      · next hchain => exact absurd hchain (hnot _ _)
      · cases hres : factoryChain (basic (data ++ data') []) m with
        | basic data loci => rfl
        | chain b' m' => exact absurd hres (hnot _ _)
        | choice cs => rfl
  | case6 base curr hbasic hleft hright =>
      rw [transformPredicateStateChain, join]
      · exact hbasic
      · exact hleft
      · exact hright
      · exact hbasic
      · exact hleft
      · exact hright

/-- `t` is what one call makes of the chain: the paths are those of the two parts, and the loci
those that are kept. -/
structure IsJoin (base curr t : LocatedState Pred Locus) : Prop where
  settled : Settled t
  language_eq : t.language = base.language * curr.language
  getVisited_eq : t.getVisited = keptBy base curr

theorem isEmpty_basic_iff {data : List Pred} {loci : List Locus} :
    (basic data loci : LocatedState Pred Locus).isEmpty = true ↔ data = [] := by
  rw [isEmpty_basic, List.isEmpty_iff]

/-- The last two of three parts are merged. -/
theorem join_merged_left {b : LocatedState Pred Locus} {data data' : List Pred}
    {loci loci' : List Locus} (hb : Settled (chain b (basic data loci))) :
    (Joins (chain b (basic data loci)) (basic data' loci') →
      ∃ t, join (chain b (basic data loci)) (basic data' loci') = some t ∧
        IsJoin (chain b (basic data loci)) (basic data' loci') t) ∧
    (¬ Joins (chain b (basic data loci)) (basic data' loci') →
      join (chain b (basic data loci)) (basic data' loci') = none) := by
  obtain ⟨hbSettled, -, happart⟩ := hb
  have hlanguage : (chain b (basic (data ++ data') ([] : List Locus))).language =
      (chain b (basic data loci)).language * (basic data' loci').language := by
    rw [language_chain, language_chain, mul_assoc, language_basic_append data data' [] loci loci']
  simp only [Joins, join]
  cases hempty : b.isEmpty with
  | true =>
      refine ⟨fun h => absurd h.1 nofun, fun _ => ?_⟩
      rw [factoryChain, if_pos hempty]
      rfl
  | false =>
      by_cases hdata : data ++ data' = []
      · have hres : factoryChain b (basic (data ++ data') []) = b := by
          rw [factoryChain, hempty, if_neg Bool.false_ne_true,
            if_pos (isEmpty_basic_iff.mpr hdata)]
        rw [hres]
        refine ⟨fun h => ⟨b, if_pos (h.2 hdata), hbSettled, ?_, by rw [keptBy]⟩, fun h => ?_⟩
        · rw [hdata, language_chain, language_basic_nil, mul_one] at hlanguage
          exact hlanguage
        · rw [if_neg fun hchain => h ⟨rfl, fun _ => hchain⟩]
      · have hres : factoryChain b (basic (data ++ data') []) =
            chain b (basic (data ++ data') []) := by
          rw [factoryChain, hempty, if_neg Bool.false_ne_true,
            if_neg fun h => hdata (isEmpty_basic_iff.mp h)]
        rw [hres]
        refine ⟨fun _ => ⟨_, if_pos rfl, ⟨hbSettled, trivial, ?_⟩, hlanguage, ?_⟩,
          fun h => absurd ⟨rfl, fun hnil => absurd hnil hdata⟩ h⟩
        · cases b with
          | basic data loci => exact happart
          | chain x y => cases y <;> exact happart
          | choice cs => exact trivial
        · rw [getVisited, getVisited, List.append_nil, keptBy]

/-- The first two of three parts are merged. -/
theorem join_merged_right {m : LocatedState Pred Locus} {data data' : List Pred}
    {loci loci' : List Locus} (hm : Settled (chain (basic data' loci') m)) :
    (Joins (basic data loci) (chain (basic data' loci') m) →
      ∃ t, join (basic data loci) (chain (basic data' loci') m) = some t ∧
        IsJoin (basic data loci) (chain (basic data' loci') m) t) ∧
    (¬ Joins (basic data loci) (chain (basic data' loci') m) →
      join (basic data loci) (chain (basic data' loci') m) = none) := by
  obtain ⟨-, hmSettled, happart⟩ := hm
  have hlanguage : (chain (basic (data ++ data') ([] : List Locus)) m).language =
      (basic data loci).language * (chain (basic data' loci') m).language := by
    rw [language_chain, language_chain, ← mul_assoc,
      language_basic_append data data' [] loci loci']
  simp only [Joins, join]
  by_cases hdata : data ++ data' = []
  · have hres : factoryChain (basic (data ++ data') []) m = m := by
      rw [factoryChain, if_pos (isEmpty_basic_iff.mpr hdata)]
    rw [hres, if_pos hdata]
    refine ⟨fun h => ⟨m, if_pos h, hmSettled, ?_, by rw [keptBy]⟩, fun h => if_neg h⟩
    rw [hdata, language_chain, language_basic_nil, one_mul] at hlanguage
    exact hlanguage
  · rw [if_neg hdata]
    cases hempty : m.isEmpty with
    | true =>
        refine ⟨fun h => absurd h nofun, fun _ => ?_⟩
        rw [factoryChain, if_neg fun h => hdata (isEmpty_basic_iff.mp h), if_pos hempty]
        rfl
    | false =>
        have hres : factoryChain (basic (data ++ data') []) m =
            chain (basic (data ++ data') []) m := by
          rw [factoryChain, if_neg fun h => hdata (isEmpty_basic_iff.mp h), hempty,
            if_neg Bool.false_ne_true]
        rw [hres]
        refine ⟨fun _ => ⟨_, if_pos rfl, ⟨trivial, hmSettled, ?_⟩, hlanguage, ?_⟩,
          fun h => absurd rfl h⟩
        · cases m with
          | basic data loci => exact happart
          | chain x y => cases x <;> exact happart
          | choice cs => exact trivial
        · rw [getVisited, getVisited, List.nil_append, keptBy]

theorem join_of_apart {base curr : LocatedState Pred Locus} (h : Apart base curr) :
    join base curr = some (chain base curr) ∧ Joins base curr ∧
      keptBy base curr = base.getVisited ++ curr.getVisited ∧ lostBy base curr = [] := by
  cases base with
  | basic data loci =>
      cases curr with
      | basic data' loci' => exact absurd h id
      | chain x y => cases x <;> first | exact absurd h id | exact ⟨rfl, trivial, rfl, rfl⟩
      | choice cs => exact ⟨rfl, trivial, rfl, rfl⟩
  | chain x y =>
      cases curr with
      | basic data' loci' => cases y <;> first | exact absurd h id | exact ⟨rfl, trivial, rfl, rfl⟩
      | chain x' y' => exact ⟨by cases y <;> rfl, by cases y <;> trivial, by cases y <;> rfl,
          by cases y <;> rfl⟩
      | choice cs => exact ⟨by cases y <;> rfl, by cases y <;> trivial, by cases y <;> rfl,
          by cases y <;> rfl⟩
  | choice cs => exact ⟨by cases curr <;> rfl, by cases curr <;> trivial, by cases curr <;> rfl,
      by cases curr <;> rfl⟩

/-- Two basic states meet: both parts, or one of them with the near end of a chain. -/
theorem shapes_of_not_apart {base curr : LocatedState Pred Locus} (h : ¬ Apart base curr) :
    (∃ data loci data' loci', base = basic data loci ∧ curr = basic data' loci') ∨
      (∃ data loci data' loci' y, base = basic data loci ∧ curr = chain (basic data' loci') y) ∨
      ∃ x data loci data' loci', base = chain x (basic data loci) ∧ curr = basic data' loci' := by
  cases base with
  | basic data loci =>
      cases curr with
      | basic data' loci' => exact Or.inl ⟨data, loci, data', loci', rfl, rfl⟩
      | chain x y =>
          cases x with
          | basic data' loci' => exact Or.inr (Or.inl ⟨data, loci, data', loci', y, rfl, rfl⟩)
          | chain _ _ => exact absurd trivial h
          | choice _ => exact absurd trivial h
      | choice _ => exact absurd trivial h
  | chain x y =>
      cases y with
      | basic data loci =>
          cases curr with
          | basic data' loci' => exact Or.inr (Or.inr ⟨x, data, loci, data', loci', rfl, rfl⟩)
          | chain _ _ => exact absurd trivial h
          | choice _ => exact absurd trivial h
      | chain _ _ => cases curr <;> exact absurd trivial h
      | choice _ => cases curr <;> exact absurd trivial h
  | choice _ => cases curr <;> exact absurd trivial h

/-- **One call on settled parts**: it succeeds exactly where the cast is right. -/
theorem join_spec {base curr : LocatedState Pred Locus} (hbase : Settled base)
    (hcurr : Settled curr) :
    (Joins base curr → ∃ t, join base curr = some t ∧ IsJoin base curr t) ∧
      (¬ Joins base curr → join base curr = none) := by
  by_cases happart : Apart base curr
  · obtain ⟨hjoin, hjoins, hkept, -⟩ := join_of_apart happart
    refine ⟨fun _ => ⟨_, hjoin, ⟨hbase, hcurr, happart⟩, language_chain base curr, ?_⟩,
      fun h => absurd hjoins h⟩
    rw [hkept, getVisited]
  · rcases shapes_of_not_apart happart with ⟨data, loci, data', loci', rfl, rfl⟩ |
      ⟨data, loci, data', loci', y, rfl, rfl⟩ | ⟨x, data, loci, data', loci', rfl, rfl⟩
    · refine ⟨fun _ => ⟨_, rfl, trivial, ?_, rfl⟩, fun h => absurd trivial h⟩
      exact language_basic_append data data' [] loci loci'
    · exact join_merged_right hcurr
    · exact join_merged_left hbase

/-- Every locus is kept or lost. -/
theorem mem_keptBy_or_lostBy (base curr : LocatedState Pred Locus) (l : Locus) :
    l ∈ base.getVisited ∨ l ∈ curr.getVisited ↔ l ∈ keptBy base curr ∨ l ∈ lostBy base curr := by
  by_cases happart : Apart base curr
  · obtain ⟨-, -, hkept, hlost⟩ := join_of_apart happart
    rw [hkept, hlost, List.mem_append]
    simp
  · rcases shapes_of_not_apart happart with ⟨data, loci, data', loci', rfl, rfl⟩ |
      ⟨data, loci, data', loci', y, rfl, rfl⟩ | ⟨x, data, loci, data', loci', rfl, rfl⟩
    · simp [getVisited, keptBy, lostBy]
    · simp only [getVisited, keptBy, lostBy, List.mem_append]
      tauto
    · simp only [getVisited, keptBy, lostBy, List.mem_append]
      tauto

/-! ## The whole pass -/

/-- Every call of the pass casts a chain. -/
inductive Safe : LocatedState Pred Locus → Prop
  | basic (data : List Pred) (loci : List Locus) : Safe (basic data loci)
  | chain {base curr : LocatedState Pred Locus} : Safe base → Safe curr →
      (∀ b c, transform base = some b → transform curr = some c → Joins b c) →
      Safe (chain base curr)
  | choice {choices : List (LocatedState Pred Locus)} : (∀ c ∈ choices, Safe c) →
      Safe (choice choices)

mutual
/-- The loci of the basic states that are merged in one of the calls. -/
def lost : LocatedState Pred Locus → List Locus
  | basic _ _ => []
  | chain base curr =>
    lost base ++ lost curr ++
      ((transform base).bind fun b => (transform curr).map (lostBy b)).getD []
  | choice choices => lostAll choices

/-- The same for all alternatives of a choice. -/
def lostAll : List (LocatedState Pred Locus) → List Locus
  | [] => []
  | c :: cs => lost c ++ lostAll cs
end

mutual
/-- The loci of the basic states that are merged in none of the calls. -/
def kept : LocatedState Pred Locus → List Locus
  | basic _ loci => loci
  | chain base curr => ((transform base).bind fun b => (transform curr).map (keptBy b)).getD []
  | choice choices => keptAll choices

/-- The same for all alternatives of a choice. -/
def keptAll : List (LocatedState Pred Locus) → List Locus
  | [] => []
  | c :: cs => kept c ++ keptAll cs
end

/-- `t` is `s` optimized. -/
structure IsOptimized (s t : LocatedState Pred Locus) : Prop where
  safe : Safe s
  settled : Settled t
  language_eq : t.language = s.language
  getVisited_eq : t.getVisited = kept s
  mem_getVisited_iff : ∀ l, l ∈ s.getVisited ↔ l ∈ kept s ∨ l ∈ lost s

theorem isOptimized_chain {base curr b c t : LocatedState Pred Locus} (hbase : IsOptimized base b)
    (hcurr : IsOptimized curr c) (hb : transform base = some b) (hc : transform curr = some c)
    (ht : join b c = some t) : IsOptimized (chain base curr) t := by
  have hspec := join_spec hbase.settled hcurr.settled
  have hjoins : Joins b c := by
    by_contra hnot
    rw [hspec.2 hnot] at ht
    exact absurd ht nofun
  obtain ⟨t', ht', hjoin⟩ := hspec.1 hjoins
  obtain rfl := Option.some.inj (ht.symm.trans ht')
  have hkept : kept (chain base curr) = keptBy b c := by
    rw [kept, hb, hc]
    rfl
  have hlost : lost (chain base curr) = lost base ++ lost curr ++ lostBy b c := by
    rw [lost, hb, hc]
    rfl
  refine ⟨.chain hbase.safe hcurr.safe ?_, hjoin.settled, ?_, hjoin.getVisited_eq.trans hkept.symm,
    fun l => ?_⟩
  · rintro b' c' hb' hc'
    obtain rfl := Option.some.inj (hb.symm.trans hb')
    obtain rfl := Option.some.inj (hc.symm.trans hc')
    exact hjoins
  · rw [hjoin.language_eq, hbase.language_eq, hcurr.language_eq, language_chain]
  · have hsplit := mem_keptBy_or_lostBy b c l
    rw [hbase.getVisited_eq, hcurr.getVisited_eq] at hsplit
    rw [getVisited, List.mem_append, hbase.mem_getVisited_iff, hcurr.mem_getVisited_iff, hkept,
      hlost, List.mem_append, List.mem_append]
    tauto

theorem isOptimized_choice_nil :
    IsOptimized (choice []) (choice [] : LocatedState Pred Locus) :=
  ⟨.choice fun _ hc => absurd hc List.not_mem_nil, trivial, rfl, rfl, fun l => by
    simp [getVisited, getVisitedAll, kept, keptAll, lost, lostAll]⟩

theorem isOptimized_choice_cons {c d : LocatedState Pred Locus}
    {cs ds : List (LocatedState Pred Locus)} (hc : IsOptimized c d)
    (hcs : IsOptimized (choice cs) (choice ds)) :
    IsOptimized (choice (c :: cs)) (choice (d :: ds)) := by
  refine ⟨.choice (List.forall_mem_cons.mpr ⟨hc.safe, ?_⟩), trivial, ?_, ?_, fun l => ?_⟩
  · cases hcs.safe with
    | choice hall => exact hall
  · rw [language_choice_cons, language_choice_cons, hc.language_eq, hcs.language_eq]
  · have htail := hcs.getVisited_eq
    rw [getVisited, kept] at htail
    rw [getVisited, getVisitedAll, kept, keptAll, hc.getVisited_eq, htail]
  · have htail := hcs.mem_getVisited_iff l
    rw [getVisited, kept, lost] at htail
    rw [getVisited, getVisitedAll, kept, keptAll, lost, lostAll, List.mem_append,
      List.mem_append, List.mem_append, hc.mem_getVisited_iff, htail]
    tauto

/-- **Whatever the pass returns** keeps the paths and the loci that are not lost. -/
theorem isOptimized_of_transform {s t : LocatedState Pred Locus} (h : transform s = some t) :
    IsOptimized s t := by
  induction s using induction generalizing t with
  | basic data loci =>
      rw [transform, Option.some.injEq] at h
      subst h
      exact ⟨.basic data loci, trivial, rfl, rfl, fun l => by simp [getVisited, kept, lost]⟩
  | chain base curr hbase hcurr =>
      rw [transform, Option.bind_eq_some_iff] at h
      obtain ⟨b, hb, h⟩ := h
      obtain ⟨c, hc, h⟩ := Option.bind_eq_some_iff.mp h
      rw [transformPredicateStateChain_eq_join (hbase hb).settled (hcurr hc).settled] at h
      exact isOptimized_chain (hbase hb) (hcurr hc) hb hc h
  | choice choices ih =>
      rw [transform] at h
      obtain ⟨ts, hts, rfl⟩ := Option.map_eq_some_iff.mp h
      clear h
      induction choices generalizing ts with
      | nil =>
          rw [transformAll, Option.some.injEq] at hts
          subst hts
          exact isOptimized_choice_nil
      | cons c cs ihcs =>
          rw [transformAll, Option.bind_eq_some_iff] at hts
          obtain ⟨d, hd, hts⟩ := hts
          obtain ⟨ds, hds, rfl⟩ := Option.map_eq_some_iff.mp hts
          exact isOptimized_choice_cons (ih c List.mem_cons_self hd)
            (ihcs (fun c hc => ih c (List.mem_cons_of_mem _ hc)) ds hds)

theorem exists_transformAll {cs : List (LocatedState Pred Locus)}
    (h : ∀ c ∈ cs, ∃ t, transform c = some t) : ∃ ts, transformAll cs = some ts := by
  induction cs with
  | nil => exact ⟨[], by rw [transformAll]⟩
  | cons c cs ih =>
      obtain ⟨t, ht⟩ := h c List.mem_cons_self
      obtain ⟨ts, hts⟩ := ih fun d hd => h d (List.mem_cons_of_mem _ hd)
      exact ⟨t :: ts, by rw [transformAll, ht, hts]; rfl⟩

/-- **The pass is defined on the safe states.** -/
theorem Safe.exists_transform {s : LocatedState Pred Locus} (h : Safe s) :
    ∃ t, transform s = some t := by
  induction h with
  | basic data loci => exact ⟨.basic data loci, by rw [transform]⟩
  | @chain base curr _ _ hjoins hbase hcurr =>
      obtain ⟨b, hb⟩ := hbase
      obtain ⟨c, hc⟩ := hcurr
      have hbOpt := isOptimized_of_transform hb
      have hcOpt := isOptimized_of_transform hc
      obtain ⟨t, ht, -⟩ := (join_spec hbOpt.settled hcOpt.settled).1 (hjoins b c hb hc)
      refine ⟨t, ?_⟩
      rw [transform, hb, hc, Option.bind_some, Option.bind_some,
        transformPredicateStateChain_eq_join hbOpt.settled hcOpt.settled, ht]
  | choice _ ih =>
      obtain ⟨ts, hts⟩ := exists_transformAll ih
      exact ⟨.choice ts, by rw [transform, hts]; rfl⟩

/-- The pass only brackets the state anew: it is defined, and keeps paths and loci. -/
def OnlyRebrackets (s : LocatedState Pred Locus) : Prop :=
  ∃ t, transform s = some t ∧ t.language = s.language ∧
    ∀ l, l ∈ t.getVisited ↔ l ∈ s.getVisited

/-- **The pass only brackets anew** exactly the safe states in which every locus of a merged basic
state is also one of a basic state that is not merged. -/
theorem onlyRebrackets_iff (s : LocatedState Pred Locus) :
    OnlyRebrackets s ↔ Safe s ∧ ∀ l ∈ lost s, l ∈ kept s := by
  constructor
  · rintro ⟨t, ht, -, hvisited⟩
    have hopt := isOptimized_of_transform ht
    refine ⟨hopt.safe, fun l hl => ?_⟩
    rw [← hopt.getVisited_eq, hvisited, hopt.mem_getVisited_iff]
    exact Or.inr hl
  · rintro ⟨hsafe, hlost⟩
    obtain ⟨t, ht⟩ := hsafe.exists_transform
    have hopt := isOptimized_of_transform ht
    refine ⟨t, ht, hopt.language_eq, fun l => ?_⟩
    rw [hopt.getVisited_eq, hopt.mem_getVisited_iff]
    exact ⟨Or.inl, fun h => h.elim id (hlost l)⟩

/-- Two basic states with a locus are merged into one without it, and behind an empty part a merged
chain is cast that is none. -/
theorem not_onlyRebrackets :
    ¬ OnlyRebrackets (chain (basic [0] [7]) (basic [1] []) : LocatedState Nat Nat) ∧
      ¬ OnlyRebrackets (chain (chain (choice []) (basic [0] [])) (basic [1] []) :
        LocatedState Nat Nat) := by
  constructor
  · rintro ⟨t, ht, -, hvisited⟩
    simp only [transform, transformPredicateStateChain, Option.bind_some, Option.some.injEq] at ht
    subst ht
    have hmem := (hvisited 7).mpr (by simp [getVisited])
    simp [getVisited] at hmem
  · rintro ⟨t, ht, -⟩
    have hopt := isOptimized_of_transform ht
    cases hopt.safe with
    | chain _ _ hjoins =>
        have hcall := hjoins (chain (choice []) (basic [0] [])) (basic [1] [])
          (by simp only [transform, transformAll, Option.map_some, Option.bind_some,
            transformPredicateStateChain_of_apart (show Apart (choice []) (basic [0] []) from
              trivial)])
          (by rw [transform])
        exact absurd hcall.1 (by decide)

end LocatedState

end Borealis
