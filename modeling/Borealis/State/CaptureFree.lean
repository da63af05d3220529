import Borealis.State.CallSiteInitializer

/-!
# Names shared by two calls

Instantiation is meant to be capture-free: what the summaries of two calls say is not to meet in a
variable, unless it is global or the caller hands it to one of the calls.

The prefix of a renamed variable only tells the two calls apart when their names do.  All calls
without name and result are called `%-1`, the name of one call can be the beginning of another up to
a dot, and free variables, the result and the place it is stored to are not renamed at all.

## Strategy

A state has the variables of its transformed leaves, so that a variable two states share comes from
two leaves.  The cases are those of `transformLeaf`: a leaf is renamed, keeps variables of its own,
or becomes an actual argument.  Simplification happens after instantiation, but which predicates it
drops can be read from the summary (`remaining`).
-/

namespace Borealis

/-- `collectVariables`. -/
def PredicateState.collectVariables (s : PredicateState Predicate) : List (Bool × String) :=
  s.preds.flatMap Predicate.collectVariables

/-- The names of the variables in the actual arguments. -/
def CallSite.argNames (ci : CallSite) : List String :=
  (ci.args.flatMap Term.collectVariables).map Prod.snd

namespace CallSiteInitializer

variable (matcher : List (PredicateState Predicate) → Bool) (FN : TermFactory) (caller : Caller)
  (ci : CallSite)

/-! ## Instantiated states -/

/-- `transform` of a state; an exception in one predicate ends it. -/
def transformState (s : PredicateState Predicate) : Option (PredicateState Predicate) :=
  if s.preds.all fun p => (transform FN caller ci p).isSome then
    some ((s.filterMap (transform FN caller ci)).simplify matcher)
  else none

/-- The leaves of the predicates that simplification leaves in the instantiated state. -/
def remaining (s : PredicateState Predicate) : List Term :=
  (s.simplify fun cs => matcher (cs.map
    (PredicateState.filterMap (transform FN caller ci)))).preds.flatMap Predicate.leaves

variable {matcher FN caller ci}

/-- **An instantiated state has the variables of its transformed leaves.** -/
theorem collectVariables_transformState {s t : PredicateState Predicate}
    (h : transformState matcher FN caller ci s = some t) :
    t.collectVariables =
      (remaining matcher FN caller ci s).flatMap (leafVariables caller ci) := by
  rw [transformState] at h
  split_ifs at h with hall
  obtain rfl := Option.some.inj h
  rw [List.all_eq_true] at hall
  rw [PredicateState.collectVariables, PredicateState.simplify_filterMap matcher hall,
    PredicateState.preds_filterMap, remaining]
  have hmem : ∀ p ∈ (s.simplify fun cs => matcher (cs.map
      (PredicateState.filterMap (transform FN caller ci)))).preds,
      (transform FN caller ci p).isSome = true := fun p hp =>
    hall p (PredicateState.mem_preds_of_simplify _ hp)
  generalize (s.simplify _).preds = ps at hmem ⊢
  induction ps with
  | nil => rfl
  | cons p ps ih =>
      obtain ⟨q, hq⟩ := Option.isSome_iff_exists.1 (hmem p List.mem_cons_self)
      rw [List.filterMap_cons_some hq, List.flatMap_cons, List.flatMap_cons, List.flatMap_append,
        collectVariables_transform hq, ih fun r hr => hmem r (List.mem_cons_of_mem _ hr)]

/-! ## What becomes of a leaf -/

/-- The names of the variables that are renamed. -/
def localNames (leaves : List Term) : List String :=
  (leaves.filter fun t => t.cls = .value false).map Term.getName

/-- The variables that a leaf has after transformation and that are neither renamed nor part of an
actual argument. -/
def keptVariables (caller : Caller) (ci : CallSite) (t : Term) : List (Bool × String) :=
  match t.cls with
  | .value true | .const | .freeVar => t.ownVariable
  | .returnValue => (resultTerm caller ci).ownVariable
  | .returnPtr => (ci.storedTo.map Term.collectVariables).getD []
  | _ => []

theorem isCompound_of_mem_leaves : ∀ {t l : Term}, l ∈ t.leaves → l.cls.isCompound = false
  | .mk obj cls type name subterms, l, hl => by
    rw [Term.leaves] at hl
    split_ifs at hl with hcls
    · rw [Term.leavesAll_eq_flatMap, List.mem_flatMap] at hl
      obtain ⟨t, ht, hl⟩ := hl
      exact isCompound_of_mem_leaves hl
    · obtain rfl := List.mem_singleton.1 hl
      exact Bool.eq_false_iff.2 hcls

theorem collectVariables_of_not_isCompound {t : Term} (h : t.cls.isCompound = false) :
    t.collectVariables = t.ownVariable := by
  rcases t with ⟨obj, cls, type, name, subterms⟩
  rw [Term.collectVariables, Term.leaves, if_neg (show ¬cls.isCompound = true from
    Bool.eq_false_iff.1 h), List.flatMap_singleton]

theorem mem_argNames {i : Nat} {t : Term} {v : Bool × String} (ht : ci.args[i]? = some t)
    (hv : v ∈ t.collectVariables) : v.2 ∈ ci.argNames :=
  List.mem_map_of_mem (List.mem_flatMap.2 ⟨t, List.mem_of_getElem? ht, hv⟩)

/-- A variable of a transformed leaf is renamed, kept, or part of an actual argument. -/
theorem mem_leafVariables_cases {t : Term} {v : Bool × String}
    (ht : t.cls.isCompound = false) (h : v ∈ leafVariables caller ci t) :
    t.cls = .value false ∧ v = (false, namePrefix caller ci ++ t.getName) ∨
      v ∈ keptVariables caller ci t ∨ v.2 ∈ ci.argNames := by
  obtain ⟨u, hu, hv⟩ : ∃ u, transformLeaf caller ci t = some u ∧ v ∈ u.collectVariables := by
    rw [leafVariables] at h
    cases hleaf : transformLeaf caller ci t with
    | none => rw [hleaf] at h; exact absurd h List.not_mem_nil
    | some u => rw [hleaf] at h; exact ⟨u, rfl, h⟩
  have hself : ∀ {u}, some t = some u → v ∈ u.collectVariables → v ∈ t.ownVariable := by
    intro u htu hv
    obtain rfl := Option.some.inj htu
    rwa [collectVariables_of_not_isCompound ht] at hv
  rcases t with ⟨obj, cls, type, name, subterms⟩
  cases cls with
  | value global =>
      cases global with
      | true => exact Or.inr (Or.inl (hself hu hv))
      | false =>
          obtain rfl := Option.some.inj hu
          exact Or.inl ⟨rfl, List.mem_singleton.1 hv⟩
  | const => exact Or.inr (Or.inl (hself hu hv))
  | freeVar => exact Or.inr (Or.inl (hself hu hv))
  | returnValue =>
      obtain rfl := Option.some.inj hu
      exact Or.inr (Or.inl hv)
  | returnPtr =>
      have hstored : ci.storedTo = some u := hu
      exact Or.inr (Or.inl (by rw [keptVariables, Term.cls, hstored]; exact hv))
  | argument idx kind =>
      cases kind with
      | any => exact Or.inr (Or.inr (mem_argNames hu hv))
      | string =>
          obtain ⟨_, _, hu⟩ := Option.bind_eq_some_iff.1 hu
          obtain ⟨_, _, rfl⟩ := Option.map_eq_some_iff.1 hu
          exact absurd hv List.not_mem_nil
  | varArgument idx => exact Or.inr (Or.inr (mem_argNames hu hv))
  | argumentCount =>
      obtain rfl := Option.some.inj hu
      exact absurd hv List.not_mem_nil
  | axiomTerm | bound | binary _ | cast _ | cmp _ | gep _ | load | opaqueCall | opaqueIndexing
  | opaqueMemberAccess _ _ | readProperty | sign | ternary | unary _ =>
      exact Bool.noConfusion ht
  | _ => exact absurd (hself hu hv) List.not_mem_nil

theorem mem_leafVariables_of_local {t : Term} (hcls : t.cls = .value false) :
    (false, namePrefix caller ci ++ t.getName) ∈ leafVariables caller ci t := by
  rcases t with ⟨obj, cls, type, name, subterms⟩
  obtain rfl : cls = .value false := hcls
  exact List.mem_singleton.2 rfl

theorem mem_leafVariables_of_kept {t : Term} {v : Bool × String}
    (h : v ∈ keptVariables caller ci t) : v ∈ leafVariables caller ci t := by
  rcases t with ⟨obj, cls, type, name, subterms⟩
  rw [leafVariables]
  cases cls with
  | value global =>
      cases global with
      | true => exact h
      | false => exact absurd h List.not_mem_nil
  | const => exact h
  | freeVar => exact h
  | returnValue => exact h
  | returnPtr => exact h
  | _ => exact absurd h List.not_mem_nil

/-! ## Capture -/

/-- The names that the local variables of a summary are given at a call. -/
def renamedNames (caller : Caller) (ci : CallSite) (leaves : List Term) : List String :=
  (localNames leaves).map fun name => namePrefix caller ci ++ name

/-- **Instantiation at two calls is capture-free**: the states share only globals and what the
caller hands over, and no variable is given a name of the caller. -/
structure CaptureFree (caller : Caller) (ci₁ ci₂ : CallSite) (leaves₁ leaves₂ : List Term)
    (t₁ t₂ : PredicateState Predicate) : Prop where
  shared : ∀ v ∈ t₁.collectVariables, ∀ w ∈ t₂.collectVariables, v.2 = w.2 →
    v.1 = true ∧ w.1 = true ∨ v.2 ∈ ci₁.argNames ++ ci₂.argNames
  renamed : ∀ name ∈ renamedNames caller ci₁ leaves₁ ++ renamedNames caller ci₂ leaves₂,
    name ∉ caller.names

/-- The names in two summaries that instantiation does not bring together: the local names after
the names of the calls, and the variables that keep their names. -/
structure Apart (caller : Caller) (ci₁ ci₂ : CallSite) (leaves₁ leaves₂ : List Term) : Prop where
  locals : ∀ m ∈ localNames leaves₁, ∀ n ∈ localNames leaves₂,
    callerInstName caller ci₁ ++ "." ++ m = callerInstName caller ci₂ ++ "." ++ n →
      namePrefix caller ci₁ ++ m ∈ ci₁.argNames ++ ci₂.argNames
  localKept : ∀ m ∈ localNames leaves₁, ∀ w ∈ leaves₂.flatMap (keptVariables caller ci₂),
    w.2 = namePrefix caller ci₁ ++ m → w.2 ∈ ci₁.argNames ++ ci₂.argNames
  keptLocal : ∀ v ∈ leaves₁.flatMap (keptVariables caller ci₁), ∀ n ∈ localNames leaves₂,
    v.2 = namePrefix caller ci₂ ++ n → v.2 ∈ ci₁.argNames ++ ci₂.argNames
  kept : ∀ v ∈ leaves₁.flatMap (keptVariables caller ci₁),
    ∀ w ∈ leaves₂.flatMap (keptVariables caller ci₂), v.2 = w.2 →
      v.1 = true ∧ w.1 = true ∨ v.2 ∈ ci₁.argNames ++ ci₂.argNames
  caller₁ : ∀ m ∈ localNames leaves₁, namePrefix caller ci₁ ++ m ∉ caller.names
  caller₂ : ∀ n ∈ localNames leaves₂, namePrefix caller ci₂ ++ n ∉ caller.names

/-- The prefixes of two calls differ only in the names of the calls. -/
theorem namePrefix_append_eq_iff {ci₁ ci₂ : CallSite} {m n : String} :
    namePrefix caller ci₁ ++ m = namePrefix caller ci₂ ++ n ↔
      callerInstName caller ci₁ ++ "." ++ m = callerInstName caller ci₂ ++ "." ++ n := by
  simp only [namePrefix, ← String.toList_inj, String.toList_append, List.append_assoc,
    List.append_cancel_left_eq]

/-- The variables of a list of transformed leaves. -/
theorem mem_flatMap_leafVariables_cases {leaves : List Term} {v : Bool × String}
    (hleaves : ∀ t ∈ leaves, t.cls.isCompound = false)
    (hv : v ∈ leaves.flatMap (leafVariables caller ci)) :
    (∃ m ∈ localNames leaves, v = (false, namePrefix caller ci ++ m)) ∨
      v ∈ leaves.flatMap (keptVariables caller ci) ∨ v.2 ∈ ci.argNames := by
  obtain ⟨t, ht, hv⟩ := List.mem_flatMap.1 hv
  rcases mem_leafVariables_cases (hleaves t ht) hv with ⟨hcls, rfl⟩ | hkept | harg
  · refine Or.inl ⟨t.getName, List.mem_map_of_mem (List.mem_filter.2 ⟨ht, ?_⟩), rfl⟩
    exact decide_eq_true hcls
  · exact Or.inr (Or.inl (List.mem_flatMap.2 ⟨t, ht, hkept⟩))
  · exact Or.inr (Or.inr harg)

theorem mem_flatMap_leafVariables_of_local {leaves : List Term} {m : String}
    (hm : m ∈ localNames leaves) :
    (false, namePrefix caller ci ++ m) ∈ leaves.flatMap (leafVariables caller ci) := by
  obtain ⟨t, ht, rfl⟩ := List.mem_map.1 hm
  obtain ⟨ht, hcls⟩ := List.mem_filter.1 ht
  exact List.mem_flatMap.2 ⟨t, ht, mem_leafVariables_of_local (of_decide_eq_true hcls)⟩

theorem mem_flatMap_leafVariables_of_kept {leaves : List Term} {v : Bool × String}
    (hv : v ∈ leaves.flatMap (keptVariables caller ci)) :
    v ∈ leaves.flatMap (leafVariables caller ci) := by
  obtain ⟨t, ht, hv⟩ := List.mem_flatMap.1 hv
  exact List.mem_flatMap.2 ⟨t, ht, mem_leafVariables_of_kept hv⟩

theorem isCompound_of_mem_remaining {s : PredicateState Predicate} {t : Term}
    (ht : t ∈ remaining matcher FN caller ci s) : t.cls.isCompound = false := by
  obtain ⟨p, _, ht⟩ := List.mem_flatMap.1 ht
  obtain ⟨u, _, ht⟩ := List.mem_flatMap.1 ht
  exact isCompound_of_mem_leaves ht

end CallSiteInitializer

/-! ## Two calls without result -/

/-- A function with two calls that have neither name nor result. -/
def voidCaller : Caller :=
  ⟨"f", [⟨none, .instruction true, "call void @g()"⟩, ⟨none, .instruction true, "call void @h()"⟩]⟩

/-- A function with two calls that have a result and no name. -/
def slotCaller : Caller :=
  ⟨"f", [⟨none, .instruction false, "call @g()"⟩, ⟨none, .instruction false, "call @h()"⟩]⟩

/-- `x = 1` for a local variable `x` of the callee. -/
def localSummary : PredicateState Predicate :=
  .basic [.equality .state (.mk 0 (.value false) (.integer 32 .unknown) "x" [])
    (.mk 0 (.opaqueIntConstant 1) (.integer 32 .unknown) "1" [])]

/-- What becomes of it under a prefix. -/
def renamedSummary (name : String) : PredicateState Predicate :=
  .basic [.equality .state (.mk 0 (.value false) (.integer 32 .unknown) name [])
    (.mk 0 (.opaqueIntConstant 1) (.integer 32 .unknown) "1" [])]

/-- A factory for summaries without compound terms. -/
def plainFactory : TermFactory := ⟨fun _ type _ => type, fun _ _ _ => ""⟩

theorem transformState_localSummary (caller : Caller) (ci : CallSite) :
    CallSiteInitializer.transformState (fun _ => false) plainFactory caller ci localSummary =
      some (renamedSummary (CallSiteInitializer.namePrefix caller ci ++ "x")) := by
  rfl

namespace CallSiteInitializer

end CallSiteInitializer

end Borealis
