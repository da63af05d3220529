import Borealis.State.PredicateState

/-!
# Predicate paths

The paths of a state are the sequences of predicates it offers: a basic state has its one
sequence, a chain all concatenations, a choice the paths of all its alternatives.  A valuation
satisfies a state when it satisfies all predicates of one of its paths (`holds_iff_paths`).

The rest of the file is what the analyses build states with: `sliceOn` of the three classes,
`PredicateStateFactory` and `PredicateStateBuilder`.  Factory and builder leave out a part that
`isEmpty`.  That keeps the paths as long as the part stands for the empty sequence; a choice
without alternatives is empty too, and it has no path at all.  `hasAlternatives` tells the states
in which no such choice occurs.

Predicates are compared twice in the source, by identity (here `=`) and by `Predicate::equals`
(`eqv`), which a state comparison asks only when the identities differ.
-/

namespace Borealis

namespace PredicateState

variable {Pred : Type}

/-! ## The paths of a state -/

mutual
/-- The predicate paths of a state. -/
def paths : PredicateState Pred → List (List Pred)
  | basic data => [data]
  | chain base curr => (paths base).flatMap fun p => (paths curr).map fun q => p ++ q
  | choice choices => pathsAll choices

/-- The paths of all alternatives of a choice. -/
def pathsAll : List (PredicateState Pred) → List (List Pred)
  | [] => []
  | c :: cs => paths c ++ pathsAll cs
end

attribute [local simp] paths

theorem pathsAll_eq_flatMap (cs : List (PredicateState Pred)) :
    pathsAll cs = cs.flatMap paths := by
  induction cs with
  | nil => rfl
  | cons c cs ih => rw [pathsAll, ih, List.flatMap_cons]

@[simp] theorem mem_paths_basic {p data : List Pred} : p ∈ (basic data).paths ↔ p = data := by
  rw [paths, List.mem_singleton]

@[simp] theorem mem_paths_chain {p : List Pred} {base curr : PredicateState Pred} :
    p ∈ (chain base curr).paths ↔ ∃ q ∈ base.paths, ∃ r ∈ curr.paths, q ++ r = p := by
  simp only [paths, List.mem_flatMap, List.mem_map]

@[simp] theorem mem_paths_choice {p : List Pred} {cs : List (PredicateState Pred)} :
    p ∈ (choice cs).paths ↔ ∃ c ∈ cs, p ∈ c.paths := by
  rw [paths, pathsAll_eq_flatMap, List.mem_flatMap]

/-- **A valuation satisfies a state exactly when it satisfies one of its paths.** -/
theorem holds_iff_paths (v : Pred → Bool) (s : PredicateState Pred) :
    s.holds v = true ↔ ∃ p ∈ s.paths, p.all v = true := by
  induction s using induction with
  | basic data => simp
  | chain base curr hbase hcurr =>
      rw [holds_chain, Bool.and_eq_true, hbase, hcurr]
      constructor
      · rintro ⟨⟨p, hp, hpv⟩, q, hq, hqv⟩
        refine ⟨p ++ q, mem_paths_chain.mpr ⟨p, hp, q, hq, rfl⟩, ?_⟩
        rw [List.all_append, hpv, hqv, Bool.and_true]
      · rintro ⟨path, hpath, hv⟩
        obtain ⟨p, hp, q, hq, rfl⟩ := mem_paths_chain.mp hpath
        rw [List.all_append, Bool.and_eq_true] at hv
        exact ⟨⟨p, hp, hv.1⟩, q, hq, hv.2⟩
  | choice choices ih =>
      rw [holds_choice, List.any_eq_true]
      constructor
      · rintro ⟨c, hc, hholds⟩
        obtain ⟨p, hp, hv⟩ := (ih c hc).mp hholds
        exact ⟨p, mem_paths_choice.mpr ⟨c, hc, hp⟩, hv⟩
      · rintro ⟨p, hp, hv⟩
        obtain ⟨c, hc, hpc⟩ := mem_paths_choice.mp hp
        exact ⟨c, hc, (ih c hc).mpr ⟨p, hpc, hv⟩⟩

/-- An empty state has no path but the empty one. -/
theorem eq_nil_of_mem_paths {s : PredicateState Pred} (hempty : s.isEmpty = true) {p : List Pred}
    (hp : p ∈ s.paths) : p = [] := by
  induction s using induction generalizing p with
  | basic data =>
      rw [mem_paths_basic] at hp
      rw [hp]
      exact List.isEmpty_iff.mp hempty
  | chain base curr hbase hcurr =>
      rw [isEmpty, Bool.and_eq_true] at hempty
      obtain ⟨q, hq, r, hr, rfl⟩ := mem_paths_chain.mp hp
      rw [hbase hempty.2 hq, hcurr hempty.1 hr, List.append_nil]
  | choice choices ih =>
      obtain ⟨c, hc, hpc⟩ := mem_paths_choice.mp hp
      exact ih c hc (isEmpty_choice_iff.mp hempty c hc) hpc

/-! ## States with a path -/

mutual
/-- No choice inside the state is without alternatives. -/
def hasAlternatives : PredicateState Pred → Bool
  | basic _ => true
  | chain base curr => hasAlternatives base && hasAlternatives curr
  | choice choices => !choices.isEmpty && allHaveAlternatives choices

/-- The same for every alternative of a choice. -/
def allHaveAlternatives : List (PredicateState Pred) → Bool
  | [] => true
  | c :: cs => hasAlternatives c && allHaveAlternatives cs
end

attribute [local simp] hasAlternatives

theorem allHaveAlternatives_iff {cs : List (PredicateState Pred)} :
    allHaveAlternatives cs = true ↔ ∀ c ∈ cs, c.hasAlternatives = true := by
  induction cs with
  | nil => simp [allHaveAlternatives]
  | cons c cs ih => simp [allHaveAlternatives, ih]

@[simp] theorem hasAlternatives_basic (data : List Pred) :
    (basic data).hasAlternatives = true := by
  rw [hasAlternatives]

@[simp] theorem hasAlternatives_chain {base curr : PredicateState Pred} :
    (chain base curr).hasAlternatives = true ↔
      base.hasAlternatives = true ∧ curr.hasAlternatives = true := by
  rw [hasAlternatives, Bool.and_eq_true]

@[simp] theorem hasAlternatives_choice {cs : List (PredicateState Pred)} :
    (choice cs).hasAlternatives = true ↔ cs ≠ [] ∧ ∀ c ∈ cs, c.hasAlternatives = true := by
  rw [hasAlternatives, Bool.and_eq_true, allHaveAlternatives_iff]
  simp

/-- A state in which every choice has an alternative has a path. -/
theorem exists_mem_paths {s : PredicateState Pred} (hs : s.hasAlternatives = true) :
    ∃ p, p ∈ s.paths := by
  induction s using induction with
  | basic data => exact ⟨data, mem_paths_basic.mpr rfl⟩
  | chain base curr hbase hcurr =>
      rw [hasAlternatives_chain] at hs
      obtain ⟨p, hp⟩ := hbase hs.1
      obtain ⟨q, hq⟩ := hcurr hs.2
      exact ⟨p ++ q, mem_paths_chain.mpr ⟨p, hp, q, hq, rfl⟩⟩
  | choice choices ih =>
      obtain ⟨hne, hall⟩ := hasAlternatives_choice.mp hs
      obtain ⟨c, hc⟩ := List.exists_mem_of_ne_nil choices hne
      obtain ⟨p, hp⟩ := ih c hc (hall c hc)
      exact ⟨p, mem_paths_choice.mpr ⟨c, hc, hp⟩⟩

/-- Where every choice has an alternative, an empty state stands for the empty path. -/
theorem mem_paths_of_isEmpty {s : PredicateState Pred} (hempty : s.isEmpty = true)
    (hs : s.hasAlternatives = true) {p : List Pred} : p ∈ s.paths ↔ p = [] := by
  constructor
  · exact eq_nil_of_mem_paths hempty
  · rintro rfl
    obtain ⟨q, hq⟩ := exists_mem_paths hs
    rwa [eq_nil_of_mem_paths hempty hq] at hq

/-! ## Comparison and slicing -/

section Slice

variable [DecidableEq Pred] (eqv : Pred → Pred → Bool)

mutual
/-- `operator==` of predicate states. -/
def equals : PredicateState Pred → PredicateState Pred → Bool
  | basic data, basic data' =>
    decide (data.length = data'.length) &&
      (data.zip data').all fun (p, q) => decide (p = q) || eqv p q
  | chain base curr, chain base' curr' => equals base base' && equals curr curr'
  | choice choices, choice choices' => equalsAll choices choices'
  | _, _ => false

/-- `util::equal` on the alternatives of two choices. -/
def equalsAll : List (PredicateState Pred) → List (PredicateState Pred) → Bool
  | [], [] => true
  | c :: cs, d :: ds => equals c d && equalsAll cs ds
  | _, _ => false
end

mutual
/-- `sliceOn` of the three classes; `none` is the null pointer. -/
def sliceOn (on : PredicateState Pred) : PredicateState Pred → Option (PredicateState Pred)
  | basic data =>
    if equals eqv (basic data) on then some (basic [])
    else
      match on with
      | basic other =>
        if other.isPrefixOf data then some (basic (data.drop other.length)) else none
      | _ => none
  | chain base curr =>
    if equals eqv base on then some curr
    else (sliceOn on base).map fun baseSlice => chain baseSlice curr
  | choice choices => (sliceAllOn on choices).map choice

/-- `sliceOn` on every alternative of a choice; null as soon as one slice is null. -/
def sliceAllOn (on : PredicateState Pred) :
    List (PredicateState Pred) → Option (List (PredicateState Pred))
  | [] => some []
  | c :: cs => (sliceOn on c).bind fun slice => (sliceAllOn on cs).map fun slices => slice :: slices
end

attribute [local simp] sliceOn

@[simp] theorem equals_refl (s : PredicateState Pred) : equals eqv s s = true := by
  induction s using induction with
  | basic data =>
      simp only [equals, decide_true, Bool.true_and]
      induction data with
      | nil => rfl
      | cons p data ih => simp [ih]
  | chain base curr hbase hcurr => rw [equals, hbase, hcurr, Bool.and_true]
  | choice choices ih =>
      rw [equals]
      induction choices with
      | nil => rfl
      | cons c cs ihcs =>
          rw [equalsAll, ih c List.mem_cons_self,
            ihcs fun d hd => ih d (List.mem_cons_of_mem _ hd), Bool.and_true]

end Slice

end PredicateState

/-! ## Building states -/

namespace PredicateStateFactory

variable {Pred : Type}

/-- `PredicateStateFactory::Chain`. -/
def chain (base curr : PredicateState Pred) : PredicateState Pred :=
  if base.isEmpty then curr
  else if curr.isEmpty then base
  else .chain base curr

/-- `PredicateStateFactory::Choice`. -/
def choice : List (PredicateState Pred) → PredicateState Pred
  | [c] => c
  | choices => .choice choices

@[simp] theorem mem_paths_choice {p : List Pred} {cs : List (PredicateState Pred)} :
    p ∈ (choice cs).paths ↔ ∃ c ∈ cs, p ∈ c.paths := by
  unfold choice
  split
  · next c => simp
  · exact PredicateState.mem_paths_choice

theorem hasAlternatives_choice {cs : List (PredicateState Pred)} (hne : cs ≠ [])
    (hcs : ∀ c ∈ cs, c.hasAlternatives = true) : (choice cs).hasAlternatives = true := by
  unfold choice
  split
  · next c => exact hcs c List.mem_cons_self
  · exact PredicateState.hasAlternatives_choice.mpr ⟨hne, hcs⟩

/-- A factory chain has all paths of the chain. -/
theorem mem_paths_chain_of_mem {p : List Pred} {base curr : PredicateState Pred}
    (hp : p ∈ (PredicateState.chain base curr).paths) : p ∈ (chain base curr).paths := by
  obtain ⟨q, hq, r, hr, rfl⟩ := PredicateState.mem_paths_chain.mp hp
  unfold chain
  split
  · next hbase =>
      rw [PredicateState.eq_nil_of_mem_paths hbase hq]
      exact hr
  · split
    · next hcurr =>
        rw [PredicateState.eq_nil_of_mem_paths hcurr hr, List.append_nil]
        exact hq
    · exact hp

/-- A factory chain has no other paths, if every choice in the two parts has an alternative. -/
theorem mem_paths_chain {p : List Pred} {base curr : PredicateState Pred}
    (hbase : base.hasAlternatives = true) (hcurr : curr.hasAlternatives = true) :
    p ∈ (chain base curr).paths ↔ p ∈ (PredicateState.chain base curr).paths := by
  refine ⟨fun hp => ?_, mem_paths_chain_of_mem⟩
  rw [PredicateState.mem_paths_chain]
  unfold chain at hp
  split at hp
  · next hempty =>
      exact ⟨[], (PredicateState.mem_paths_of_isEmpty hempty hbase).mpr rfl, p, hp, rfl⟩
  · split at hp
    · next hempty =>
        exact ⟨p, hp, [], (PredicateState.mem_paths_of_isEmpty hempty hcurr).mpr rfl,
          List.append_nil p⟩
    · exact PredicateState.mem_paths_chain.mp hp

theorem hasAlternatives_chain {base curr : PredicateState Pred}
    (hbase : base.hasAlternatives = true) (hcurr : curr.hasAlternatives = true) :
    (chain base curr).hasAlternatives = true := by
  unfold chain
  split
  · exact hcurr
  · split
    · exact hbase
    · exact PredicateState.hasAlternatives_chain.mpr ⟨hbase, hcurr⟩

end PredicateStateFactory

end Borealis
