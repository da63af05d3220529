import Borealis.State.Paths
import Borealis.State.Simplify
import Mathlib

/-!
# Factoring of common prefixes

`optimizeChoices` of `Passes/PredicateStateAnalysis/OneForAll.cpp`.  The alternatives of a choice
are grouped by their first component, the front; the front is sliced off every alternative of its
group, the remainders are factored in turn and chained behind the front.  With `OptimizeSubs` a
front that is itself a choice is first replaced by its alternatives.

The groups are read out of unordered maps whose keys are shared pointers.  Which fronts are one
object and in which order the maps are walked depends on the heap, not on the states, and is a
parameter here: a `Grouping` is any partition into groups with a common front, and may be another
one in every recursive call.

Both the loop over the choice fronts and the recursion are run with fuel; `none` is a run that has
not come to an end.

## Strategy

`weight` is a bound for all the work: it is multiplicative in a chain, so that replacing a choice
front by its alternatives, each with a copy of the tail, makes it smaller, and so does slicing off
a front that is not empty.  `optimizeChoices_spec` is the induction on the fuel; a step of it reads
`mem_paths_rest` (a state is its front followed by its `rest`) once for every group.

All of it needs that an empty state stands for the empty path, which is false for a choice
without alternatives.
-/

namespace Borealis

namespace PredicateState

variable {Pred : Type}

/-- `getFront`. -/
def getFront : PredicateState Pred → PredicateState Pred
  | basic data => basic data
  | chain base _ => getFront base
  | choice choices => choice choices

attribute [local simp] getFront

/-- What follows the front of a state. -/
def rest : PredicateState Pred → PredicateState Pred
  | chain (chain base mid) curr => chain (rest (chain base mid)) curr
  | chain _ curr => curr
  | _ => basic []

attribute [local simp] rest

mutual
/-- A bound for the number of states the factoring of a state can still produce. -/
def weight : PredicateState Pred → Nat
  | basic data => data.length + 2
  | chain base curr => weight base * weight curr
  | choice choices => weightAll choices + 2

/-- The sum of the weights of the alternatives of a choice. -/
def weightAll : List (PredicateState Pred) → Nat
  | [] => 0
  | c :: cs => weight c + weightAll cs
end

theorem weightAll_eq_sum (cs : List (PredicateState Pred)) :
    weightAll cs = (cs.map weight).sum := by
  induction cs with
  | nil => rfl
  | cons c cs ih => rw [weightAll, ih, List.map_cons, List.sum_cons]

theorem two_le_weight (s : PredicateState Pred) : 2 ≤ s.weight := by
  induction s using induction with
  | basic data => rw [weight]; omega
  | chain base curr hbase hcurr =>
      rw [weight]
      calc 2 ≤ 2 * 2 := by omega
        _ ≤ base.weight * curr.weight := Nat.mul_le_mul hbase hcurr
  | choice choices _ => rw [weight]; omega

theorem weightAll_append (cs ds : List (PredicateState Pred)) :
    weightAll (cs ++ ds) = weightAll cs + weightAll ds := by
  rw [weightAll_eq_sum, weightAll_eq_sum, weightAll_eq_sum, List.map_append, List.sum_append]

theorem weightAll_filter_le (f : PredicateState Pred → Bool) (cs : List (PredicateState Pred)) :
    weightAll (cs.filter f) ≤ weightAll cs := by
  induction cs with
  | nil => exact Nat.le_refl _
  | cons c cs ih =>
      rw [List.filter_cons]
      split
      · rw [weightAll, weightAll]; omega
      · rw [weightAll]; omega

theorem weightAll_le_flatMap {gs : List (PredicateState Pred × List (PredicateState Pred))}
    {g : PredicateState Pred × List (PredicateState Pred)} (hg : g ∈ gs) :
    weightAll g.2 ≤ weightAll (gs.flatMap Prod.snd) := by
  induction gs with
  | nil => exact absurd hg List.not_mem_nil
  | cons head gs ih =>
      rw [List.flatMap_cons, weightAll_append]
      rcases List.mem_cons.mp hg with rfl | hg
      · omega
      · have := ih hg
        omega

theorem weightAll_map_lt {f : PredicateState Pred → PredicateState Pred}
    {cs : List (PredicateState Pred)} (hne : cs ≠ []) (hlt : ∀ c ∈ cs, (f c).weight < c.weight) :
    weightAll (cs.map f) < weightAll cs := by
  induction cs with
  | nil => exact absurd rfl hne
  | cons c cs ih =>
      have hhead := hlt c List.mem_cons_self
      rw [List.map_cons, weightAll, weightAll]
      cases cs with
      | nil => simpa [weightAll] using hhead
      | cons d ds =>
          have := ih (by simp) fun e he => hlt e (List.mem_cons_of_mem _ he)
          omega

theorem getFront_ne_chain (s base curr : PredicateState Pred) : s.getFront ≠ chain base curr := by
  induction s using induction with
  | basic data => exact nofun
  | chain b _ hb _ => exact hb
  | choice choices _ => exact nofun

/-! ## A state is its front followed by its rest -/

theorem mem_paths_rest {p : List Pred} (s : PredicateState Pred) :
    p ∈ s.paths ↔ p ∈ (chain s.getFront s.rest).paths := by
  induction s using induction generalizing p with
  | basic data => simp [getFront, rest, eq_comm]
  | choice choices _ => simp [getFront, rest, -mem_paths_choice]
  | chain base curr hbase _ =>
      cases base with
      | basic data => rfl
      | choice choices => rfl
      | chain base mid =>
          -- the chain is split at the front of its base, and the rest re-associates
          simp only [rest, getFront, mem_paths_chain] at hbase ⊢
          constructor
          · rintro ⟨q, hq, r, hr, rfl⟩
            obtain ⟨q₁, hq₁, q₂, hq₂, rfl⟩ := hbase.mp hq
            exact ⟨q₁, hq₁, q₂ ++ r, ⟨q₂, hq₂, r, hr, rfl⟩, by rw [List.append_assoc]⟩
          · rintro ⟨q₁, hq₁, _, ⟨q₂, hq₂, r, hr, rfl⟩, rfl⟩
            exact ⟨q₁ ++ q₂, hbase.mpr ⟨q₁, hq₁, q₂, hq₂, rfl⟩, r, hr,
              by rw [List.append_assoc]⟩

theorem hasAlternatives_rest {s : PredicateState Pred} (hs : s.hasAlternatives = true) :
    s.getFront.hasAlternatives = true ∧ s.rest.hasAlternatives = true := by
  induction s using induction with
  | basic data => exact ⟨hs, hasAlternatives_basic []⟩
  | choice choices _ => exact ⟨hs, hasAlternatives_basic []⟩
  | chain base curr hbase _ =>
      rw [hasAlternatives_chain] at hs
      cases base with
      | basic data => exact hs
      | choice choices => exact hs
      | chain base mid =>
          obtain ⟨hfront, hrest⟩ := hbase hs.1
          exact ⟨hfront, hasAlternatives_chain.mpr ⟨hrest, hs.2⟩⟩

theorem weight_chain_eq (base curr : PredicateState Pred) :
    (chain base curr).weight = base.getFront.weight * (chain base curr).rest.weight := by
  induction base using induction generalizing curr with
  | basic data => rw [weight, getFront, rest]; simp
  | choice choices _ => rw [weight, getFront, rest]; simp
  | chain base mid hbase _ =>
      have hrest : (chain (chain base mid) curr).rest = chain (chain base mid).rest curr := rfl
      rw [weight, hbase, hrest, getFront, weight, Nat.mul_assoc]

/-- A state weighs more than its rest, unless it starts with the empty sequence. -/
theorem weight_rest_lt {s : PredicateState Pred} (hfront : s.getFront.isEmpty = false) :
    s.rest.weight < s.weight := by
  have hthree : 3 ≤ s.getFront.weight := by
    cases hs : s.getFront with
    | basic data =>
        have : data ≠ [] := by simpa [hs, isEmpty] using hfront
        have := List.length_pos_iff.mpr this
        rw [weight]; omega
    | chain base curr => exact absurd hs (getFront_ne_chain s base curr)
    | choice choices =>
        have hne : choices ≠ [] := by
          rintro rfl
          simp [hs, isEmpty, allEmpty] at hfront
        obtain ⟨c, cs, rfl⟩ := List.exists_cons_of_ne_nil hne
        have := two_le_weight c
        rw [weight, weightAll]; omega
  cases s with
  | basic data =>
      have hrest : (basic data).rest = basic [] := rfl
      rw [hrest, weight]
      exact hthree
  | choice choices =>
      have hrest : (choice choices).rest = basic [] := rfl
      rw [hrest, weight]
      exact hthree
  | chain base curr =>
      rw [getFront] at hthree
      rw [weight_chain_eq]
      have hpos := two_le_weight (chain base curr).rest
      calc (chain base curr).rest.weight
          < 3 * (chain base curr).rest.weight := by omega
        _ ≤ base.getFront.weight * (chain base curr).rest.weight :=
            Nat.mul_le_mul_right _ hthree

section Slice

variable [DecidableEq Pred] (eqv : Pred → Pred → Bool)

/-- **Slicing a chain on its front leaves its rest.** -/
theorem sliceOn_getFront (base curr : PredicateState Pred) :
    sliceOn eqv base.getFront (chain base curr) = some (chain base curr).rest := by
  induction base using induction generalizing curr with
  | basic data => rw [sliceOn, getFront, if_pos (equals_refl eqv _), rest]; simp
  | choice choices _ => rw [sliceOn, getFront, if_pos (equals_refl eqv _), rest]; simp
  | chain base mid hbase _ =>
      have hne : equals eqv (chain base mid) (chain base mid).getFront = false := by
        cases hs : (chain base mid).getFront with
        | basic data => rfl
        | choice choices => rfl
        | chain b c => exact absurd hs (getFront_ne_chain _ b c)
      rw [sliceOn, hne]
      simp only [Bool.false_eq_true, if_false]
      have hslice := hbase mid
      rw [getFront, hslice, Option.map_some]
      rfl

end Slice

/-! ## The factoring -/

/-- `OptimizeSubsEnum`. -/
inductive OptimizeSubsEnum where
  | optimizeSubs | doNotOptimizeSubs
deriving DecidableEq, Repr

/-- What the hash maps of `optimizeChoices` do with a list of states: a partition into groups,
each with its common front.  The first argument tells the recursive calls apart. -/
structure Grouping (Pred : Type) where
  groups : List Nat → List (PredicateState Pred) →
    List (PredicateState Pred × List (PredicateState Pred))
  perm : ∀ call states, ((groups call states).flatMap Prod.snd).Perm states
  front_eq : ∀ call states, ∀ g ∈ groups call states, ∀ s ∈ g.2, s.getFront = g.1
  ne_nil : ∀ call states, ∀ g ∈ groups call states, g.2 ≠ []

section Factoring

variable [DecidableEq Pred] (eqv : Pred → Pred → Bool)

/-- What `results[candidate]` receives for a state of the group of `candidate`. -/
def remainder (candidate state : PredicateState Pred) : Option (PredicateState Pred) :=
  if candidate.isEmpty then some state
  else if equals eqv candidate state then some (basic [])
  else sliceOn eqv candidate state

/-- The loop that replaces states with a choice front by one state for each alternative.  The new
states are put at the end and visited in turn. -/
def expandHeads : Nat → List (PredicateState Pred) → Option (List (PredicateState Pred))
  | _, [] => some []
  | 0, _ :: _ => none
  | fuel + 1, c :: cs =>
    match c.getFront with
    | choice (alt :: alts) =>
      let tail := sliceOn eqv c.getFront c
      expandHeads fuel (cs ++ (alt :: alts).map fun ip =>
        match tail with
        | some tail => PredicateStateFactory.chain ip tail
        | none => ip)
    | _ => (expandHeads fuel cs).map fun kept => c :: kept

/-- The states that are grouped: with `OptimizeSubs` the choice fronts are expanded first. -/
def expanded (subs : OptimizeSubsEnum) (fuel : Nat) (choices : List (PredicateState Pred)) :
    Option (List (PredicateState Pred)) :=
  match subs with
  | .optimizeSubs => expandHeads eqv fuel choices
  | .doNotOptimizeSubs => some choices

/-- `optimizeChoices`.  A null slice would be filtered out by the recursive call. -/
def optimizeChoices (G : Grouping Pred) (subs : OptimizeSubsEnum) :
    Nat → List Nat → List (PredicateState Pred) → Option (List (PredicateState Pred))
  | 0, _, _ => none
  | fuel + 1, call, choices_ =>
    (expanded eqv subs fuel choices_).bind fun choices =>
    let hasEmpty := choices.any fun c => c.isEmpty
    let nonEmpty := choices.filter fun c => !c.isEmpty
    if nonEmpty.length < 2 then some choices
    else
      let results := (G.groups call nonEmpty).zipIdx.mapM fun (g : (_ × _) × Nat) =>
        let candidate := g.1.1
        let states := g.1.2.filterMap (remainder eqv candidate)
        if candidate.isEmpty then some (PredicateStateFactory.choice states)
        else
          (optimizeChoices G subs fuel (g.2 :: call) states).map fun optimized =>
            PredicateStateFactory.chain candidate (PredicateStateFactory.choice optimized)
      results.map fun result => (if hasEmpty then [basic []] else []) ++ result

/-! ## What can be sliced weighs no more -/

theorem weight_eq_of_equals {s t : PredicateState Pred} (h : equals eqv s t = true) :
    s.weight = t.weight := by
  induction s using induction generalizing t with
  | basic data =>
      cases t with
      | basic other =>
          rw [equals, Bool.and_eq_true, decide_eq_true_eq] at h
          rw [weight, weight, h.1]
      | chain base curr => exact absurd h Bool.false_ne_true
      | choice choices => exact absurd h Bool.false_ne_true
  | chain base curr hbase hcurr =>
      cases t with
      | basic other => exact absurd h Bool.false_ne_true
      | chain base' curr' =>
          rw [equals, Bool.and_eq_true] at h
          rw [weight, weight, hbase h.1, hcurr h.2]
      | choice choices => exact absurd h Bool.false_ne_true
  | choice choices ih =>
      cases t with
      | basic other => exact absurd h Bool.false_ne_true
      | chain base curr => exact absurd h Bool.false_ne_true
      | choice others =>
          rw [equals] at h
          rw [weight, weight]
          congr 1
          induction choices generalizing others with
          | nil =>
              cases others with
              | nil => rfl
              | cons d ds => exact absurd h Bool.false_ne_true
          | cons c cs ihcs =>
              cases others with
              | nil => exact absurd h Bool.false_ne_true
              | cons d ds =>
                  rw [equalsAll, Bool.and_eq_true] at h
                  rw [weightAll, weightAll, ih c List.mem_cons_self h.1,
                    ihcs (fun e he => ih e (List.mem_cons_of_mem _ he)) ds h.2]

/-- What a state can be sliced on weighs no more than the state. -/
theorem weight_le_of_sliceOn {on s slice : PredicateState Pred} (hs : s.hasAlternatives = true)
    (hslice : sliceOn eqv on s = some slice) : on.weight ≤ s.weight := by
  induction s using induction generalizing slice with
  | basic data =>
      cases on with
      | chain base curr => exact absurd hslice nofun
      | choice choices => exact absurd hslice nofun
      | basic other =>
          rw [sliceOn] at hslice
          split at hslice
          · next heq => exact Nat.le_of_eq (weight_eq_of_equals eqv heq).symm
          · split at hslice
            · next hstart =>
                have := (List.isPrefixOf_iff_prefix.mp hstart).length_le
                rw [weight, weight]
                omega
            · exact absurd hslice nofun
  | chain base curr hbase _ =>
      rw [hasAlternatives_chain] at hs
      have hle : on.weight ≤ base.weight := by
        rw [sliceOn] at hslice
        split at hslice
        · next heq => exact Nat.le_of_eq (weight_eq_of_equals eqv heq).symm
        · obtain ⟨baseSlice, hbaseSlice, -⟩ := Option.map_eq_some_iff.mp hslice
          exact hbase hs.1 hbaseSlice
      calc on.weight ≤ base.weight := hle
        _ ≤ base.weight * curr.weight :=
            Nat.le_mul_of_pos_right _ (Nat.lt_of_lt_of_le Nat.two_pos (two_le_weight curr))
        _ = (chain base curr).weight := by rw [weight]
  | choice choices ih =>
      obtain ⟨hne, hall⟩ := hasAlternatives_choice.mp hs
      obtain ⟨c, cs, rfl⟩ := List.exists_cons_of_ne_nil hne
      rw [sliceOn] at hslice
      obtain ⟨slices, hslices, -⟩ := Option.map_eq_some_iff.mp hslice
      rw [sliceAllOn] at hslices
      obtain ⟨headSlice, hhead, -⟩ := Option.bind_eq_some_iff.mp hslices
      have := ih c List.mem_cons_self (hall c List.mem_cons_self) hhead
      rw [weight, weightAll]
      omega

/-- A choice cannot be sliced on itself. -/
theorem sliceOn_self_choice {c : PredicateState Pred} {cs : List (PredicateState Pred)}
    (hs : (choice (c :: cs)).hasAlternatives = true) :
    sliceOn eqv (choice (c :: cs)) (choice (c :: cs)) = none := by
  obtain ⟨-, hall⟩ := hasAlternatives_choice.mp hs
  cases hslice : sliceOn eqv (choice (c :: cs)) c with
  | none => rw [sliceOn, sliceAllOn, hslice]; rfl
  | some slice =>
      -- the first alternative would weigh as much as the whole choice
      have := weight_le_of_sliceOn eqv (hall c List.mem_cons_self) hslice
      rw [weight, weightAll] at this
      omega

/-! ## What a step keeps -/

/-- The outcome of a factoring step: the same paths, in states whose choices have alternatives. -/
structure Factors (choices result : List (PredicateState Pred)) : Prop where
  hasAlternatives : ∀ r ∈ result, r.hasAlternatives = true
  ne_nil : choices ≠ [] → result ≠ []
  paths : ∀ p, p ∈ (choice result).paths ↔ p ∈ (choice choices).paths

omit [DecidableEq Pred] in
theorem weight_factoryChain_le (base curr : PredicateState Pred) :
    (PredicateStateFactory.chain base curr).weight ≤ base.weight * curr.weight := by
  have hbase := two_le_weight base
  have hcurr := two_le_weight curr
  unfold PredicateStateFactory.chain
  split
  · exact Nat.le_mul_of_pos_left _ (by omega)
  · split
    · exact Nat.le_mul_of_pos_right _ (by omega)
    · exact Nat.le_of_eq (by rw [weight])

/-- The states that `expandHeads` puts in the place of a state with a choice front. -/
def alternativesOf (c : PredicateState Pred) (alts : List (PredicateState Pred)) :
    List (PredicateState Pred) :=
  alts.map fun ip =>
    match sliceOn eqv c.getFront c with
    | some tail => PredicateStateFactory.chain ip tail
    | none => ip

/-- **Replacing a choice front by its alternatives keeps the paths and leaves less work.** -/
theorem alternativesOf_spec {c alt : PredicateState Pred} {alts : List (PredicateState Pred)}
    (hc : c.hasAlternatives = true) (hfront : c.getFront = choice (alt :: alts)) :
    Factors [c] (alternativesOf eqv c (alt :: alts)) ∧
      weightAll (alternativesOf eqv c (alt :: alts)) < c.weight := by
  have hfrontAlt : (choice (alt :: alts)).hasAlternatives = true := by
    rw [← hfront]
    exact (hasAlternatives_rest hc).1
  obtain ⟨-, halts⟩ := hasAlternatives_choice.mp hfrontAlt
  cases c with
  | basic data => exact absurd hfront nofun
  | choice choices =>
      rw [getFront] at hfront
      obtain rfl : choices = alt :: alts := by injection hfront
      have hmap : alternativesOf eqv (choice (alt :: alts)) (alt :: alts) = alt :: alts := by
        unfold alternativesOf
        rw [getFront, sliceOn_self_choice eqv hc]
        exact List.map_id _
      rw [hmap]
      refine ⟨⟨halts, fun _ => by simp, fun p => by simp⟩, ?_⟩
      rw [weight]
      omega
  | chain base curr =>
      have hslice := sliceOn_getFront eqv base curr
      have hrest := (hasAlternatives_rest hc).2
      have hmap : alternativesOf eqv (chain base curr) (alt :: alts) =
          (alt :: alts).map fun ip =>
            PredicateStateFactory.chain ip (chain base curr).rest := by
        unfold alternativesOf
        rw [getFront, hslice]
      rw [hmap]
      refine ⟨⟨?_, fun _ => by simp, ?_⟩, ?_⟩
      · intro d hd
        obtain ⟨ip, hip, rfl⟩ := List.mem_map.mp hd
        exact PredicateStateFactory.hasAlternatives_chain (halts ip hip) hrest
      · intro p
        have hpaths := mem_paths_rest (p := p) (chain base curr)
        rw [hfront] at hpaths
        simp only [mem_paths_choice, List.mem_map, List.mem_singleton, exists_eq_left]
        rw [hpaths, mem_paths_chain]
        constructor
        · rintro ⟨_, ⟨ip, hip, rfl⟩, hp⟩
          rw [PredicateStateFactory.mem_paths_chain (halts ip hip) hrest] at hp
          obtain ⟨q, hq, r, hr, rfl⟩ := mem_paths_chain.mp hp
          exact ⟨q, mem_paths_choice.mpr ⟨ip, hip, hq⟩, r, hr, rfl⟩
        · rintro ⟨q, hq, r, hr, rfl⟩
          obtain ⟨ip, hip, hqip⟩ := mem_paths_choice.mp hq
          refine ⟨_, ⟨ip, hip, rfl⟩, ?_⟩
          rw [PredicateStateFactory.mem_paths_chain (halts ip hip) hrest]
          exact mem_paths_chain.mpr ⟨q, hqip, r, hr, rfl⟩
      · -- every alternative takes one copy of the tail, and the front weighs more than all
        have hsum : ∀ l : List (PredicateState Pred),
            weightAll (l.map fun ip => PredicateStateFactory.chain ip (chain base curr).rest) ≤
              weightAll l * (chain base curr).rest.weight := by
          intro l
          induction l with
          | nil => rw [List.map_nil, weightAll]; omega
          | cons d ds ih =>
              have := weight_factoryChain_le d (chain base curr).rest
              rw [List.map_cons, weightAll, weightAll, Nat.add_mul]
              omega
        have hpos := two_le_weight (chain base curr).rest
        rw [getFront] at hfront
        calc weightAll ((alt :: alts).map fun ip =>
              PredicateStateFactory.chain ip (chain base curr).rest)
            ≤ weightAll (alt :: alts) * (chain base curr).rest.weight := hsum _
          _ < (weightAll (alt :: alts) + 2) * (chain base curr).rest.weight :=
              Nat.mul_lt_mul_of_pos_right (by omega) (by omega)
          _ = base.getFront.weight * (chain base curr).rest.weight := by rw [hfront, weight]
          _ = (chain base curr).weight := (weight_chain_eq base curr).symm

omit [DecidableEq Pred] in
theorem Factors.refl {choices : List (PredicateState Pred)}
    (hchoices : ∀ c ∈ choices, c.hasAlternatives = true) : Factors choices choices :=
  ⟨hchoices, id, fun _ => Iff.rfl⟩

omit [DecidableEq Pred] in
theorem Factors.trans {cs ds es : List (PredicateState Pred)} (hcd : Factors cs ds)
    (hde : Factors ds es) : Factors cs es :=
  ⟨hde.hasAlternatives, fun hne => hde.ne_nil (hcd.ne_nil hne),
    fun p => (hde.paths p).trans (hcd.paths p)⟩

omit [DecidableEq Pred] in
/-- Factoring a part of a list factors the list. -/
theorem Factors.append {cs ds cs' ds' : List (PredicateState Pred)} (hfirst : Factors cs ds)
    (hsecond : Factors cs' ds') : Factors (cs ++ cs') (ds ++ ds') := by
  refine ⟨fun r hr => ?_, fun hne => ?_, fun p => ?_⟩
  · rcases List.mem_append.mp hr with hr | hr
    · exact hfirst.hasAlternatives r hr
    · exact hsecond.hasAlternatives r hr
  · intro hnil
    obtain ⟨hds, hds'⟩ := List.append_eq_nil_iff.mp hnil
    apply hne
    rw [List.append_eq_nil_iff]
    exact ⟨not_imp_comm.mp hfirst.ne_nil (by simpa using hds),
      not_imp_comm.mp hsecond.ne_nil (by simpa using hds')⟩
  · have h₁ := hfirst.paths p
    have h₂ := hsecond.paths p
    simp only [mem_paths_choice] at h₁ h₂ ⊢
    simp only [List.mem_append, or_and_right, exists_or, h₁, h₂]

omit [DecidableEq Pred] in
/-- The order of the states does not matter. -/
theorem Factors.perm {cs ds ds' : List (PredicateState Pred)} (hfactors : Factors cs ds)
    (hperm : ds.Perm ds') : Factors cs ds' := by
  refine ⟨fun r hr => hfactors.hasAlternatives r (hperm.mem_iff.mpr hr), fun hne hnil => ?_,
    fun p => ?_⟩
  · apply hfactors.ne_nil hne
    rw [hnil] at hperm
    exact hperm.eq_nil
  · rw [← hfactors.paths p]
    simp only [mem_paths_choice, hperm.mem_iff]

/-- **The loop over the choice fronts comes to an end and keeps the paths.** -/
theorem expandHeads_spec {fuel : Nat} {choices : List (PredicateState Pred)}
    (hchoices : ∀ c ∈ choices, c.hasAlternatives = true) (hfuel : weightAll choices ≤ fuel) :
    ∃ kept, expandHeads eqv fuel choices = some kept ∧ Factors choices kept ∧
      weightAll kept ≤ weightAll choices := by
  induction fuel generalizing choices with
  | zero =>
      cases choices with
      | nil => exact ⟨[], rfl, Factors.refl hchoices, Nat.le_refl _⟩
      | cons c cs =>
          have := two_le_weight c
          rw [weightAll] at hfuel
          omega
  | succ fuel ih =>
      cases choices with
      | nil => exact ⟨[], rfl, Factors.refl hchoices, Nat.le_refl _⟩
      | cons c cs =>
          have hc := hchoices c List.mem_cons_self
          have hcs : ∀ d ∈ cs, d.hasAlternatives = true :=
            fun d hd => hchoices d (List.mem_cons_of_mem _ hd)
          have hpos := two_le_weight c
          rw [weightAll] at hfuel ⊢
          -- a state with another front stays where it is
          have hkeep : (∃ kept, ((expandHeads eqv fuel cs).map fun kept => c :: kept) = some kept ∧
              Factors (c :: cs) kept ∧ weightAll kept ≤ c.weight + weightAll cs) := by
            obtain ⟨kept, hrun, hfactors, hweight⟩ := ih hcs (by omega)
            refine ⟨c :: kept, by rw [hrun, Option.map_some], ?_, ?_⟩
            · have hsingle : Factors [c] [c] := Factors.refl (by simpa using hc)
              exact hsingle.append hfactors
            · rw [weightAll]
              omega
          unfold expandHeads
          split
          · next alt alts hfront =>
              obtain ⟨hfactors, hlt⟩ := alternativesOf_spec eqv hc hfront
              have hnew : Factors (c :: cs) (cs ++ alternativesOf eqv c (alt :: alts)) :=
                (hfactors.append (Factors.refl hcs)).perm List.perm_append_comm
              obtain ⟨kept, hrun, hkept, hweight⟩ :=
                ih hnew.hasAlternatives (by rw [weightAll_append]; omega)
              refine ⟨kept, hrun, hnew.trans hkept, ?_⟩
              rw [weightAll_append] at hweight
              omega
          · exact hkeep

theorem expanded_spec (subs : OptimizeSubsEnum) {fuel : Nat}
    {choices : List (PredicateState Pred)} (hchoices : ∀ c ∈ choices, c.hasAlternatives = true)
    (hfuel : weightAll choices ≤ fuel) :
    ∃ kept, expanded eqv subs fuel choices = some kept ∧ Factors choices kept ∧
      weightAll kept ≤ weightAll choices := by
  cases subs with
  | optimizeSubs => exact expandHeads_spec eqv hchoices hfuel
  | doNotOptimizeSubs => exact ⟨choices, rfl, Factors.refl hchoices, Nat.le_refl _⟩

/-- The states of a group, without their front, are what is left of them. -/
theorem filterMap_remainder {candidate : PredicateState Pred} {states : List (PredicateState Pred)}
    (hcandidate : candidate.isEmpty = false) (hfront : ∀ s ∈ states, s.getFront = candidate) :
    states.filterMap (remainder eqv candidate) = states.map rest := by
  rw [← List.filterMap_eq_map]
  refine List.filterMap_congr fun s hs => ?_
  have hs := hfront s hs
  simp only [remainder, hcandidate, Bool.false_eq_true, if_false, Function.comp_apply]
  cases s with
  | basic data =>
      rw [getFront] at hs
      rw [← hs, if_pos (equals_refl eqv _)]
      rfl
  | choice choices =>
      rw [getFront] at hs
      rw [← hs, if_pos (equals_refl eqv _)]
      rfl
  | chain base curr =>
      rw [getFront] at hs
      have hne : equals eqv candidate (chain base curr) = false := by
        rw [← hs]
        cases hfront : base.getFront with
        | basic data => rfl
        | choice choices => rfl
        | chain b c => exact absurd hfront (getFront_ne_chain base b c)
      rw [hne, ← hs, sliceOn_getFront]
      rfl

/-- What one group of states becomes. -/
def joined (G : Grouping Pred) (subs : OptimizeSubsEnum) (fuel : Nat) (call : List Nat)
    (g : (PredicateState Pred × List (PredicateState Pred)) × Nat) :
    Option (PredicateState Pred) :=
  let candidate := g.1.1
  let states := g.1.2.filterMap (remainder eqv candidate)
  if candidate.isEmpty then some (PredicateStateFactory.choice states)
  else
    (optimizeChoices eqv G subs fuel (g.2 :: call) states).map fun optimized =>
      PredicateStateFactory.chain candidate (PredicateStateFactory.choice optimized)

/-- **A group keeps the paths of its states**, if the recursive call does. -/
theorem joined_spec {G : Grouping Pred} {subs : OptimizeSubsEnum} {fuel : Nat} {call : List Nat}
    {candidate : PredicateState Pred} {states : List (PredicateState Pred)} {i : Nat}
    (hfront : ∀ s ∈ states, s.getFront = candidate) (hne : states ≠ [])
    (hstates : ∀ s ∈ states, s.hasAlternatives = true) (hfuel : weightAll states ≤ fuel)
    (ih : ∀ (call : List Nat) (choices : List (PredicateState Pred)),
      (∀ c ∈ choices, c.hasAlternatives = true) → weightAll choices < fuel →
      ∃ result, optimizeChoices eqv G subs fuel call choices = some result ∧
        Factors choices result) :
    ∃ y, joined eqv G subs fuel call ((candidate, states), i) = some y ∧ Factors states [y] := by
  unfold joined
  cases hempty : candidate.isEmpty with
  | true =>
      have hself : states.filterMap (remainder eqv candidate) = states := by
        have : remainder eqv candidate = some := by
          funext s
          rw [remainder, if_pos hempty]
        rw [this, List.filterMap_some]
      refine ⟨PredicateStateFactory.choice states, ?_, ?_, fun _ => by simp, fun p => ?_⟩
      · simp only [hempty, if_true, hself]
      · intro r hr
        rw [List.mem_singleton.mp hr]
        exact PredicateStateFactory.hasAlternatives_choice hne hstates
      · simp only [mem_paths_choice, List.mem_singleton, exists_eq_left,
          PredicateStateFactory.mem_paths_choice]
  | false =>
      have hrests := filterMap_remainder eqv hempty hfront
      have hlt : weightAll (states.map rest) < weightAll states :=
        weightAll_map_lt hne fun s hs => weight_rest_lt (by rw [hfront s hs, hempty])
      have hrestsAlt : ∀ r ∈ states.map rest, r.hasAlternatives = true := by
        intro r hr
        obtain ⟨s, hs, rfl⟩ := List.mem_map.mp hr
        exact (hasAlternatives_rest (hstates s hs)).2
      obtain ⟨optimized, hrun, hfactors⟩ := ih (i :: call) (states.map rest) hrestsAlt (by omega)
      have hcandidateAlt : candidate.hasAlternatives = true := by
        obtain ⟨s, hs⟩ := List.exists_mem_of_ne_nil states hne
        rw [← hfront s hs]
        exact (hasAlternatives_rest (hstates s hs)).1
      have hoptimizedAlt : (PredicateStateFactory.choice optimized).hasAlternatives = true :=
        PredicateStateFactory.hasAlternatives_choice
          (hfactors.ne_nil (by simpa using hne)) hfactors.hasAlternatives
      refine ⟨PredicateStateFactory.chain candidate (PredicateStateFactory.choice optimized),
        ?_, ?_, fun _ => by simp, fun p => ?_⟩
      · simp only [hempty, Bool.false_eq_true, if_false, hrests, hrun, Option.map_some]
      · intro r hr
        rw [List.mem_singleton.mp hr]
        exact PredicateStateFactory.hasAlternatives_chain hcandidateAlt hoptimizedAlt
      · -- a path of the group is a path of the front followed by one of a remainder
        simp only [mem_paths_choice, List.mem_singleton, exists_eq_left]
        rw [PredicateStateFactory.mem_paths_chain hcandidateAlt hoptimizedAlt, mem_paths_chain]
        have hrest : ∀ q, q ∈ (PredicateStateFactory.choice optimized).paths ↔
            ∃ s ∈ states, q ∈ s.rest.paths := by
          intro q
          have := hfactors.paths q
          simp only [mem_paths_choice, List.mem_map, exists_exists_and_eq_and] at this
          rw [PredicateStateFactory.mem_paths_choice, this]
        constructor
        · rintro ⟨q, hq, r, hr, rfl⟩
          obtain ⟨s, hs, hrs⟩ := (hrest r).mp hr
          refine ⟨s, hs, (mem_paths_rest s).mpr ?_⟩
          rw [hfront s hs]
          exact mem_paths_chain.mpr ⟨q, hq, r, hrs, rfl⟩
        · rintro ⟨s, hs, hp⟩
          have hp := (mem_paths_rest s).mp hp
          rw [hfront s hs] at hp
          obtain ⟨q, hq, r, hr, rfl⟩ := mem_paths_chain.mp hp
          exact ⟨q, hq, r, (hrest r).mpr ⟨s, hs, hr⟩, rfl⟩

/-- The groups, one after the other. -/
theorem mapM_joined_spec {G : Grouping Pred} {subs : OptimizeSubsEnum} {fuel : Nat}
    {call : List Nat}
    {gs : List ((PredicateState Pred × List (PredicateState Pred)) × Nat)}
    (hgs : ∀ g ∈ gs, ∃ y, joined eqv G subs fuel call g = some y ∧ Factors g.1.2 [y]) :
    ∃ ys, gs.mapM (joined eqv G subs fuel call) = some ys ∧
      Factors (gs.flatMap fun g => g.1.2) ys := by
  induction gs with
  | nil => exact ⟨[], rfl, Factors.refl (by simp)⟩
  | cons g gs ih =>
      obtain ⟨y, hy, hfactors⟩ := hgs g List.mem_cons_self
      obtain ⟨ys, hys, hrest⟩ := ih fun g' hg' => hgs g' (List.mem_cons_of_mem _ hg')
      refine ⟨y :: ys, ?_, hfactors.append hrest⟩
      rw [List.mapM_cons, hy, hys]
      rfl

/-- **The factoring comes to an end and keeps the paths**, when every choice has an
alternative. -/
theorem optimizeChoices_factors (G : Grouping Pred) (subs : OptimizeSubsEnum) {fuel : Nat}
    (call : List Nat) {choices : List (PredicateState Pred)}
    (hchoices : ∀ c ∈ choices, c.hasAlternatives = true) (hfuel : weightAll choices < fuel) :
    ∃ result, optimizeChoices eqv G subs fuel call choices = some result ∧
      Factors choices result := by
  induction fuel generalizing call choices with
  | zero => exact absurd hfuel (Nat.not_lt_zero _)
  | succ fuel ih =>
      obtain ⟨kept, hrun, hkept, hweight⟩ :=
        expanded_spec eqv subs hchoices (show weightAll choices ≤ fuel by omega)
      unfold optimizeChoices
      rw [hrun, Option.bind_some]
      by_cases hfew : (kept.filter fun c => !c.isEmpty).length < 2
      · exact ⟨kept, if_pos hfew, hkept⟩
      simp only [if_neg hfew]
      let nonEmpty := kept.filter fun c => !c.isEmpty
      have hweight' : weightAll nonEmpty ≤ weightAll kept := weightAll_filter_le _ kept
      -- every group is a part of the states that are not empty
      have hgroups : ∀ g ∈ (G.groups call nonEmpty).zipIdx,
          ∃ y, joined eqv G subs fuel call g = some y ∧ Factors g.1.2 [y] := by
        rintro ⟨g, i⟩ hg
        have hg : g ∈ G.groups call nonEmpty := (List.mem_zipIdx' hg).2 ▸ List.getElem_mem _
        have hsum : weightAll ((G.groups call nonEmpty).flatMap Prod.snd) = weightAll nonEmpty := by
          rw [weightAll_eq_sum, weightAll_eq_sum]
          exact ((G.perm call nonEmpty).map weight).sum_nat
        have hle := weightAll_le_flatMap hg
        refine joined_spec eqv (G.front_eq call nonEmpty g hg) (G.ne_nil call nonEmpty g hg)
          (fun s hs => ?_) (by omega) fun call' choices' => ih call'
        have : s ∈ nonEmpty := (G.perm call nonEmpty).mem_iff.mp (List.mem_flatMap.mpr ⟨g, hg, hs⟩)
        exact hkept.hasAlternatives s (List.mem_of_mem_filter this)
      obtain ⟨ys, hys, hfactors⟩ := mapM_joined_spec eqv hgroups
      have hflat : ((G.groups call nonEmpty).zipIdx.flatMap fun g => g.1.2).Perm nonEmpty := by
        have : (G.groups call nonEmpty).zipIdx.flatMap (fun g => g.1.2) =
            (G.groups call nonEmpty).flatMap Prod.snd := by
          rw [List.flatMap_def, List.flatMap_def]
          congr 1
          conv_rhs => rw [← List.zipIdx_map_fst 0 (G.groups call nonEmpty), List.map_map]
          rfl
        rw [this]
        exact G.perm call nonEmpty
      have hresults : ((G.groups call nonEmpty).zipIdx.mapM (joined eqv G subs fuel call)).map
          (fun result => (if (kept.any fun c => c.isEmpty) = true then [basic []] else []) ++
            result) =
          some ((if (kept.any fun c => c.isEmpty) = true then [basic []] else []) ++ ys) := by
        rw [hys, Option.map_some]
      refine ⟨_, hresults, hkept.trans ⟨?_, ?_, ?_⟩⟩
      · intro r hr
        rcases List.mem_append.mp hr with hr | hr
        · split at hr
          · rw [List.mem_singleton.mp hr]
            exact hasAlternatives_basic []
          · exact absurd hr List.not_mem_nil
        · exact hfactors.hasAlternatives r hr
      · intro _ hnil
        have hys : ys = [] := (List.append_eq_nil_iff.mp hnil).2
        refine hfactors.ne_nil (fun h => ?_) hys
        rw [h] at hflat
        have hlength := hflat.length_eq
        rw [List.length_nil] at hlength
        apply hfew
        change nonEmpty.length < 2
        omega
      · intro p
        have hys : (∃ y ∈ ys, p ∈ y.paths) ↔ ∃ c ∈ nonEmpty, p ∈ c.paths := by
          have := hfactors.paths p
          simp only [mem_paths_choice] at this
          rw [this]
          simp only [hflat.mem_iff]
        -- the empty states all stand for the empty path
        have hempty : ∀ c ∈ kept, c.isEmpty = true → (p ∈ c.paths ↔ p = []) := fun c hc hce =>
          mem_paths_of_isEmpty hce (hkept.hasAlternatives c hc)
        simp only [mem_paths_choice, List.mem_append, or_and_right, exists_or, hys]
        constructor
        · rintro (⟨c, hc, hp⟩ | ⟨c, hc, hp⟩)
          · split at hc
            · next hany =>
                rw [List.mem_singleton.mp hc, mem_paths_basic] at hp
                obtain ⟨d, hd, hde⟩ := List.any_eq_true.mp hany
                exact ⟨d, hd, (hempty d hd hde).mpr hp⟩
            · exact absurd hc List.not_mem_nil
          · exact ⟨c, List.mem_of_mem_filter hc, hp⟩
        · rintro ⟨c, hc, hp⟩
          cases hce : c.isEmpty with
          | true =>
              have hany : (kept.any fun c => c.isEmpty) = true :=
                List.any_eq_true.mpr ⟨c, hc, hce⟩
              refine Or.inl ⟨basic [], by rw [if_pos hany]; exact List.mem_singleton_self _, ?_⟩
              rw [mem_paths_basic]
              exact (hempty c hc hce).mp hp
          | false => exact Or.inr ⟨c, List.mem_filter.mpr ⟨hc, by simp [hce]⟩, hp⟩

/-! ## More fuel changes nothing -/

theorem expandHeads_mono {fuel larger : Nat} (hle : fuel ≤ larger)
    {choices kept : List (PredicateState Pred)} (hrun : expandHeads eqv fuel choices = some kept) :
    expandHeads eqv larger choices = some kept := by
  induction fuel generalizing larger choices kept with
  | zero =>
      cases choices with
      | nil => cases larger <;> exact hrun
      | cons c cs => exact absurd hrun nofun
  | succ fuel ih =>
      obtain ⟨larger, rfl⟩ : ∃ m, larger = m + 1 := ⟨larger - 1, by omega⟩
      cases choices with
      | nil => exact hrun
      | cons c cs =>
          unfold expandHeads at hrun ⊢
          split at hrun
          · exact ih (by omega) hrun
          · obtain ⟨tail, htail, rfl⟩ := Option.map_eq_some_iff.mp hrun
            rw [ih (by omega) htail, Option.map_some]

theorem expanded_mono {subs : OptimizeSubsEnum} {fuel larger : Nat} (hle : fuel ≤ larger)
    {choices kept : List (PredicateState Pred)}
    (hrun : expanded eqv subs fuel choices = some kept) :
    expanded eqv subs larger choices = some kept := by
  cases subs with
  | optimizeSubs => exact expandHeads_mono eqv hle hrun
  | doNotOptimizeSubs => exact hrun

omit [DecidableEq Pred] in
theorem mapM_mono {α : Type} {f g : α → Option (PredicateState Pred)}
    (hfg : ∀ a y, f a = some y → g a = some y) {l : List α} {ys : List (PredicateState Pred)}
    (hrun : l.mapM f = some ys) : l.mapM g = some ys := by
  induction l generalizing ys with
  | nil => exact hrun
  | cons a l ih =>
      rw [List.mapM_cons] at hrun ⊢
      obtain ⟨y, hy, hrun⟩ := Option.bind_eq_some_iff.mp hrun
      obtain ⟨zs, hzs, hrun⟩ := Option.bind_eq_some_iff.mp hrun
      rw [hfg a y hy, ih hzs]
      exact hrun

/-- A run that came to an end has the same outcome with more fuel. -/
theorem optimizeChoices_mono {G : Grouping Pred} {subs : OptimizeSubsEnum} {fuel larger : Nat}
    (hle : fuel ≤ larger) {call : List Nat} {choices result : List (PredicateState Pred)}
    (hrun : optimizeChoices eqv G subs fuel call choices = some result) :
    optimizeChoices eqv G subs larger call choices = some result := by
  induction fuel generalizing larger call choices result with
  | zero => exact absurd hrun nofun
  | succ fuel ih =>
      obtain ⟨larger, rfl⟩ : ∃ m, larger = m + 1 := ⟨larger - 1, by omega⟩
      unfold optimizeChoices at hrun ⊢
      obtain ⟨kept, hkept, hrun⟩ := Option.bind_eq_some_iff.mp hrun
      rw [expanded_mono eqv (show fuel ≤ larger by omega) hkept, Option.bind_some]
      dsimp only at hrun ⊢
      split at hrun
      · next hfew => rw [if_pos hfew]; exact hrun
      · next hfew =>
          rw [if_neg hfew]
          obtain ⟨ys, hys, hresult⟩ := Option.map_eq_some_iff.mp hrun
          have hlarger := mapM_mono (g := joined eqv G subs larger call) (fun g y hy => ?_) hys
          · exact Option.map_eq_some_iff.mpr ⟨ys, hlarger, hresult⟩
          · -- only the recursive call of a group depends on the fuel
            unfold joined
            dsimp only at hy ⊢
            split at hy
            · next hempty => rw [if_pos hempty]; exact hy
            · next hempty =>
                rw [if_neg hempty]
                obtain ⟨optimized, hopt, rfl⟩ := Option.map_eq_some_iff.mp hy
                rw [ih (by omega) hopt, Option.map_some]

end Factoring

/-! ### Small lists -/

/-- The grouping that arises when no two fronts are one object. -/
def Grouping.singletons (Pred : Type) : Grouping Pred where
  groups _ states := states.map fun s => (s.getFront, [s])
  perm _ states := by
    rw [List.flatMap_map]
    induction states with
    | nil => exact List.Perm.refl _
    | cons s states ih => exact ih.cons s
  front_eq _ states := by
    intro g hg s hs
    obtain ⟨t, -, rfl⟩ := List.mem_map.mp hg
    rw [List.mem_singleton.mp hs]
  ne_nil _ states := by
    intro g hg
    obtain ⟨t, -, rfl⟩ := List.mem_map.mp hg
    exact List.cons_ne_nil t []

/-- `optimizeChoices` on states of Borealis predicates, where no two fronts are one object. -/
def optimizePredicates (subs : OptimizeSubsEnum) (fuel : Nat)
    (choices : List (PredicateState Predicate)) : Option (List (PredicateState Predicate)) :=
  optimizeChoices (fun _ _ => false) (Grouping.singletons Predicate) subs fuel [] choices

/-- With `OptimizeSubs`, a choice whose only alternative is the empty choice is replaced by
itself for ever. -/
theorem expandHeads_diverges (fuel : Nat) :
    optimizePredicates .optimizeSubs fuel [choice [choice []]] = none := by
  have hloop : ∀ n, expandHeads (fun _ _ => false) n
      [(choice [choice []] : PredicateState Predicate)] = none := by
    intro n
    induction n with
    | zero => rfl
    | succ n ih => exact ih
  cases fuel with
  | zero => rfl
  | succ fuel =>
      unfold optimizePredicates optimizeChoices expanded
      rw [hloop fuel]
      rfl

end PredicateState

end Borealis
