import Borealis.PredicateStateAnalysis.OneForAll

/-!
# The predicate paths of a function

What the states of the analyses are measured against: the predicates that a walk through the
control flow graph collects.  `entering` is the language of all predicate paths into a block, and
`blockLanguage`, `prefixLanguage` what the instructions of a block add to them.  With
`assumeDefectsTriggerOnce` an instruction also adds its post-predicates; that is the parameter
`post`.

The rest of the file is what one step of the analyses does to the language of a tidy state.
-/

namespace Borealis

open PredicateState PredicateStateBuilder

variable {F : Function}

/-! ## The predicates of an edge -/

section Edges

variable (F)

/-- The predicates that an edge adds: the one of the terminator and those of the phi nodes. -/
def edgePart (a b : Nat) : List Predicate :=
  (DefaultPredicateAnalysis.TPM (F.block a).terminator b).toList ++
    (F.block b).phis.flatMap fun phi => (DefaultPredicateAnalysis.PPM phi a).toList

end Edges

theorem PHINode.PPM_eq_none_iff {phi : PHINode} {a : Nat} :
    DefaultPredicateAnalysis.PPM phi a = none ↔ phi.hasIncoming a = false := by
  have hkeys : (phi.incoming.map fun e => (e.1, Predicate.equality .state phi.value e.2)).map
      Prod.fst = phi.incoming.map Prod.fst := by
    rw [List.map_map]
    rfl
  rw [DefaultPredicateAnalysis.PPM, DefaultPredicateAnalysis.write_eq_none_iff, hkeys, hasIncoming,
    Bool.eq_false_iff, Ne, List.contains_iff_mem]

/-- Only an unconditional branch has no predicate for its edge. -/
theorem TPM_eq_none_iff {a b : Nat} (hedge : F.Edge a b) :
    DefaultPredicateAnalysis.TPM (F.block a).terminator b = none ↔
      (F.block a).terminator = .br b := by
  have hmem : b ∈ (F.block a).terminator.successors := hedge
  rcases (F.block a).terminator.successors_cases with ⟨succ, hbr⟩ | heq
  · rw [hbr, TerminatorInst.successors, List.mem_singleton] at hmem
    rw [hbr, hmem]
    exact ⟨fun _ => rfl, fun _ => rfl⟩
  · have hne : (F.block a).terminator ≠ .br b := by
      intro hbr
      rw [hbr] at heq
      cases heq
    rw [DefaultPredicateAnalysis.TPM, DefaultPredicateAnalysis.write_eq_none_iff, ← heq]
    exact ⟨fun hnot => absurd hmem hnot, fun hbr => absurd hbr hne⟩

theorem isTidy_TPM (a b : Nat) : (TPM F a b).isTidy = true := isTidy_basic _

theorem isTidy_PPM (a : Nat) (phi : PHINode) : (PPM a phi).isTidy = true := isTidy_basic _

/-- Appending the predicates of the phi nodes one by one. -/
theorem grows_foldl_phis (a : Nat) (phis : List PHINode) {s : PredicateState Predicate}
    (hs : s.isTidy = true) (hempty : s.isEmpty = false) :
    Grows s (phis.foldl (fun s phi => if phi.hasIncoming a then add s (PPM a phi) else s) s)
      (basic (phis.flatMap fun phi => (DefaultPredicateAnalysis.PPM phi a).toList)).language
      (∀ phi ∈ phis, phi.hasIncoming a = false) := by
  induction phis generalizing s with
  | nil =>
      refine (Grows.refl s).congr ?_ (by simp)
      rw [List.flatMap_nil, language_basic_nil]
  | cons phi phis ih =>
      rw [List.foldl_cons, List.flatMap_cons, language_basic_append, List.forall_mem_cons]
      cases hphi : phi.hasIncoming a with
      | false =>
          refine (ih hs hempty).congr ?_ (by simp)
          rw [phi.PPM_eq_none_iff.mpr hphi, Option.toList_none, language_basic_nil, one_mul]
      | true =>
          have hgrows := Grows.add hs hempty (isTidy_PPM a phi)
          have hrest := ih (hgrows.built.isTidy hs) (hgrows.built.isEmpty_eq_false hempty)
          refine (hgrows.trans hempty hrest).congr rfl (and_congr_left fun _ => ?_)
          -- a phi node with a value for the edge has a predicate for it
          have hsome : DefaultPredicateAnalysis.PPM phi a ≠ none := fun hnone =>
            absurd (phi.PPM_eq_none_iff.mp hnone) (by rw [hphi]; exact Bool.true_eq_false_eq_False)
          obtain ⟨p, hp⟩ := Option.ne_none_iff_exists'.mp hsome
          rw [PPM, hp]
          simp [isEmpty]

namespace OneForAll

/-- **An edge appends its predicates**: nothing, where the branch is unconditional and no phi node
has a value for it. -/
theorem grows_edgeState {a b : Nat} (hedge : F.Edge a b) {s : PredicateState Predicate}
    (hs : s.isTidy = true) (hempty : s.isEmpty = false) :
    Grows s (edgeState (F := F) a b s) (basic (edgePart F a b)).language
      ((F.block a).terminator = .br b ∧ ∀ phi ∈ (F.block b).phis, phi.hasIncoming a = false) := by
  have hTPM := Grows.add hs hempty (isTidy_TPM (F := F) a b)
  have hphis := grows_foldl_phis a (F.block b).phis (hTPM.built.isTidy hs)
    (hTPM.built.isEmpty_eq_false hempty)
  refine (hTPM.trans hempty hphis).congr ?_ (and_congr_left fun _ => ?_)
  · rw [edgePart, language_basic_append, TPM]
  · rw [TPM, isEmpty, List.isEmpty_iff, Option.toList_eq_nil_iff, TPM_eq_none_iff hedge]

end OneForAll

/-! ## What the instructions of a block add -/

/-- The predicate paths that an instruction leaves behind it. -/
def afterLanguage (post : Bool) (I : Instruction) : Language Predicate :=
  (basic I.PM).language * (I.call.elim 1 fun callState => callState.1.language) *
    if post then (basic I.PostPM).language else 1

/-- What the instructions of a block add to a path through it. -/
def blockLanguage (post : Bool) : List Instruction → Language Predicate
  | [] => 1
  | I :: rest => afterLanguage post I * blockLanguage post rest

/-- What they add up to and with the one at a position. -/
def prefixLanguage (post : Bool) : List Instruction → Nat → Language Predicate
  | [], _ => 1
  | I :: _, 0 => (basic I.PM).language
  | I :: rest, k + 1 => afterLanguage post I * prefixLanguage post rest k

/-- The predicate paths into a block. -/
inductive Enters (F : Function) (post : Bool) : Nat → List Predicate → Prop
  | entry {p : List Predicate} : p ∈ F.initialState.language → Enters F post 0 p
  | edge {a b : Nat} {p q : List Predicate} : Enters F post a p →
      q ∈ blockLanguage post (F.block a).instructions → F.Edge a b →
      Enters F post b (p ++ q ++ edgePart F a b)

/-- The language of the predicate paths into a block. -/
def entering (F : Function) (post : Bool) (b : Nat) : Language Predicate := {p | Enters F post b p}

theorem entering_entry (post : Bool) : entering F post 0 = F.initialState.language := by
  ext p
  constructor
  · intro h
    generalize hb : (0 : Nat) = b at h
    cases h with
    | entry hp => exact hp
    | edge _ _ hedge => exact absurd (hb ▸ hedge) (Function.not_edge_entry _)
  · exact Enters.entry

/-- Behind the entry a path comes over one of the edges. -/
theorem mem_entering {post : Bool} {b : Nat} (hb : b ≠ 0) {p : List Predicate} :
    p ∈ entering F post b ↔ ∃ a, F.Edge a b ∧ p ∈ entering F post a *
      blockLanguage post (F.block a).instructions * (basic (edgePart F a b)).language := by
  constructor
  · intro h
    cases h with
    | entry _ => exact absurd rfl hb
    | edge hp hq hedge =>
        exact ⟨_, hedge, Language.append_mem_mul (Language.append_mem_mul hp hq)
          (mem_paths_basic.mpr rfl)⟩
  · rintro ⟨a, hedge, hp⟩
    obtain ⟨pq, hpq, r, hr, rfl⟩ := Language.mem_mul.mp hp
    obtain ⟨q, hq, r', hr', rfl⟩ := Language.mem_mul.mp hpq
    rw [mem_paths_basic.mp hr]
    exact Enters.edge hq hr' hedge

end Borealis
