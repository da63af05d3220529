import Borealis.PredicateStateAnalysis.Agreement

/-!
# Executions and the states that cover them

An execution of a function with an acyclic control flow graph enters every block at most once, so
that a valuation of the terms describes it: the edge that a terminator takes, the values of the phi
nodes and the truth of all predicates can be read from it.

## Strategy

A state is satisfied when one of its predicate paths is, and the paths of the state at an
instruction are those of the walks to it.  The walk of an execution is the only one whose edges are
all taken (`Follows.unique`), and the predicate of a taken edge is the one in `TPM` exactly when no
later edge of the terminator leads to the same block (`Kept`).  Where it was overwritten the
execution is lost.
-/

namespace Borealis

open PredicateState Lib

variable {F : Function}

/-! ## Valuations -/

/-- The values of the terms in one execution, and the truth of the predicates. -/
structure Valuation where
  value : Term → Int
  holds : Predicate → Bool
  holds_equality : ∀ type lhv rhv,
    holds (.equality type lhv rhv) = decide (value lhv = value rhv)
  holds_defaultSwitchCase : ∀ type cond cases,
    holds (.defaultSwitchCase type cond cases) = cases.all fun c => decide (value cond ≠ value c)
  true_ne_false : value (getBooleanTerm true) ≠ value (getBooleanTerm false)

namespace Valuation

variable (V : Valuation)

/-- The execution takes the edge with this index at the end of a block. -/
def Takes : TerminatorInst → Nat → Prop
  | .noSuccessor, _ => False
  | .br _, i => i = 0
  | .condBr cond _ _, i =>
    i = 0 ∧ V.value cond = V.value (getBooleanTerm true) ∨
      i = 1 ∧ V.value cond = V.value (getBooleanTerm false)
  | .switch cond cases _, i =>
    (∃ c, cases[i]? = some c ∧ V.value cond = V.value c.1) ∨
      i = cases.length ∧ ∀ c ∈ cases, V.value cond ≠ V.value c.1

/-- The values of the cases of a switch are all different. -/
def CasesDiffer : TerminatorInst → Prop
  | .switch _ cases _ => cases.Pairwise fun c d => V.value c.1 ≠ V.value d.1
  | _ => True

/-- What is true of an instruction that has been executed.  The post-predicates say that no defect
was found at it, and are there with `assumeDefectsTriggerOnce`. -/
structure Executed (post : Bool) (I : Instruction) : Prop where
  PM : ∀ p ∈ I.PM, V.holds p = true
  call : ∀ callState, I.call = some callState → callState.1.holds V.holds = true
  PostPM : post = true → ∀ p ∈ I.PostPM, V.holds p = true

/-- The phi nodes of a block that was entered from `predBB`.  The incoming values of one block are
the same. -/
def EnteredFrom (predBB : Nat) (phis : List PHINode) : Prop :=
  ∀ phi ∈ phis, ∀ e ∈ phi.incoming, e.1 = predBB → V.value phi.value = V.value e.2

/-- The instructions up to the one at a position have been executed, and that one with its own
predicates. -/
structure ExecutedUpTo (post : Bool) (Is : List Instruction) (k : Nat) : Prop where
  before : ∀ I ∈ Is.take k, V.Executed post I
  at_ : ∀ I, Is[k]? = some I → ∀ p ∈ I.PM, V.holds p = true

/-- The execution described by `V` enters the block over these edges, the last one first.  An edge
is the block it leaves and its index there. -/
inductive Reaches (F : Function) (post : Bool) : Nat → List (Nat × Nat) → Prop
  | entry : F.initialState.holds V.holds = true → Reaches F post 0 []
  | edge {a b i : Nat} {w : List (Nat × Nat)} : Reaches F post a w →
      (∀ I ∈ (F.block a).instructions, V.Executed post I) →
      V.Takes (F.block a).terminator i → (F.successors a)[i]? = some b →
      V.EnteredFrom a (F.block b).phis → Reaches F post b ((a, i) :: w)

/-- Taking the edges that the valuation says, one gets to the block over these edges. -/
inductive Follows (F : Function) : Nat → List (Nat × Nat) → Prop
  | entry : Follows F 0 []
  | edge {a b i : Nat} {w : List (Nat × Nat)} : Follows F a w →
      V.Takes (F.block a).terminator i → (F.successors a)[i]? = some b →
      Follows F b ((a, i) :: w)

end Valuation

/-- No later edge of the block leads to the same successor. -/
def Kept (F : Function) (a i : Nat) : Prop :=
  ∀ j, i < j → (F.successors a)[j]? ≠ (F.successors a)[i]?

namespace Valuation

variable {V : Valuation}

/-! ## The edge that is taken -/

/-- **Only one edge is taken.** -/
theorem Takes.unique {T : TerminatorInst} (hdiffer : V.CasesDiffer T) {i j : Nat}
    (hi : V.Takes T i) (hj : V.Takes T j) : i = j := by
  cases T with
  | noSuccessor => exact hi.elim
  | br succ => exact hi.trans hj.symm
  | condBr cond trueSucc falseSucc =>
      rcases hi with ⟨rfl, hi⟩ | ⟨rfl, hi⟩ <;> rcases hj with ⟨rfl, hj⟩ | ⟨rfl, hj⟩
      · rfl
      · exact absurd (hi.symm.trans hj) V.true_ne_false
      · exact absurd (hj.symm.trans hi) V.true_ne_false
      · rfl
  | switch cond cases defaultDest =>
      rcases hi with ⟨c, hc, hi⟩ | ⟨rfl, hi⟩ <;> rcases hj with ⟨d, hd, hj⟩ | ⟨rfl, hj⟩
      · obtain ⟨hilt, rfl⟩ := List.getElem?_eq_some_iff.mp hc
        obtain ⟨hjlt, rfl⟩ := List.getElem?_eq_some_iff.mp hd
        have heq := hi.symm.trans hj
        rcases Nat.lt_trichotomy i j with hlt | rfl | hlt
        · exact absurd heq (List.pairwise_iff_getElem.mp hdiffer i j hilt hjlt hlt)
        · rfl
        · exact absurd heq.symm (List.pairwise_iff_getElem.mp hdiffer j i hjlt hilt hlt)
      · exact absurd hi (hj c (List.mem_of_getElem? hc))
      · exact absurd hj (hi d (List.mem_of_getElem? hd))
      · rfl

/-- **An edge is taken when its predicate is true.** -/
theorem takes_iff {T : TerminatorInst} {i : Nat} {e : Nat × Predicate}
    (he : (DefaultPredicateAnalysis.edgePredicates T)[i]? = some e) :
    V.Takes T i ↔ V.holds e.2 = true := by
  cases T with
  | noSuccessor => exact absurd he (by simp [DefaultPredicateAnalysis.edgePredicates])
  | br succ => exact absurd he (by simp [DefaultPredicateAnalysis.edgePredicates])
  | condBr cond trueSucc falseSucc =>
      rcases i with _ | _ | i
      · obtain rfl := Option.some.inj he
        rw [V.holds_equality, decide_eq_true_iff]
        simp [Takes]
      · obtain rfl := Option.some.inj he
        rw [V.holds_equality, decide_eq_true_iff]
        simp [Takes]
      · exact absurd he (by simp [DefaultPredicateAnalysis.edgePredicates])
  | switch cond cases defaultDest =>
      rw [DefaultPredicateAnalysis.edgePredicates] at he
      rcases Nat.lt_or_ge i cases.length with hlt | hge
      · rw [List.getElem?_append_left (by rw [List.length_map]; exact hlt), List.getElem?_map,
          List.getElem?_eq_getElem hlt] at he
        obtain rfl := Option.some.inj he
        rw [V.holds_equality, decide_eq_true_iff]
        constructor
        · rintro (⟨c, hc, hvalue⟩ | ⟨rfl, -⟩)
          · rw [List.getElem?_eq_getElem hlt] at hc
            rw [Option.some.inj hc]
            exact hvalue
          · exact absurd hlt (Nat.lt_irrefl _)
        · exact fun hvalue => Or.inl ⟨_, List.getElem?_eq_getElem hlt, hvalue⟩
      · rw [List.getElem?_append_right (by rw [List.length_map]; exact hge), List.length_map,
          List.getElem?_singleton] at he
        have hi : i = cases.length := by
          by_contra hne
          rw [if_neg (by omega)] at he
          exact absurd he (Option.some_ne_none e).symm
        subst hi
        rw [Nat.sub_self, if_pos rfl] at he
        obtain rfl := Option.some.inj he
        rw [V.holds_defaultSwitchCase, List.all_eq_true]
        simp only [List.mem_map, decide_eq_true_iff]
        constructor
        · rintro (⟨c, hc, -⟩ | ⟨-, hall⟩)
          · exact absurd hc (by simp)
          · rintro _ ⟨c, hc, rfl⟩
            exact hall c hc
        · exact fun hall => Or.inr ⟨rfl, fun c hc => hall c.1 ⟨c, hc, rfl⟩⟩

end Valuation

/-- The predicate in `TPM` is the one of the last edge. -/
theorem TPM_eq_of_kept {T : TerminatorInst} {i : Nat} {e : Nat × Predicate}
    (he : (DefaultPredicateAnalysis.edgePredicates T)[i]? = some e)
    (hkept : ∀ j, i < j →
      ((DefaultPredicateAnalysis.edgePredicates T).map Prod.fst)[j]? ≠ some e.1) :
    DefaultPredicateAnalysis.TPM T e.1 = some e.2 := by
  have hsplit : DefaultPredicateAnalysis.edgePredicates T =
      (DefaultPredicateAnalysis.edgePredicates T).take i ++
        (e.1, e.2) :: (DefaultPredicateAnalysis.edgePredicates T).drop (i + 1) := by
    obtain ⟨hlt, heq⟩ := List.getElem?_eq_some_iff.mp he
    rw [Prod.mk.eta, ← heq, List.getElem_cons_drop, List.take_append_drop]
  rw [DefaultPredicateAnalysis.TPM, hsplit]
  refine DefaultPredicateAnalysis.write_last (fun hmem => ?_) _
  obtain ⟨j, hj⟩ := List.mem_iff_getElem?.mp hmem
  rw [List.map_drop, List.getElem?_drop] at hj
  exact hkept (i + 1 + j) (by omega) hj

/-- Among the edges to one block there is a last one. -/
theorem exists_last {l : List Nat} {b : Nat} (hb : b ∈ l) :
    ∃ i : Nat, l[i]? = some b ∧ ∀ j : Nat, i < j → l[j]? ≠ some b := by
  induction l with
  | nil => exact absurd hb List.not_mem_nil
  | cons c l ih =>
      by_cases hmem : b ∈ l
      · obtain ⟨i, hi, hlast⟩ := ih hmem
        refine ⟨i + 1, hi, fun j hj => ?_⟩
        obtain ⟨j, rfl⟩ := Nat.exists_eq_add_of_lt hj
        exact hlast _ (by omega)
      · obtain rfl := (List.mem_cons.mp hb).resolve_right hmem
        refine ⟨0, rfl, fun j hj hjb => hmem ?_⟩
        obtain ⟨j, rfl⟩ := Nat.exists_eq_add_of_lt hj
        exact List.mem_of_getElem? hjb

namespace Valuation

variable {V : Valuation}

/-- **The predicate of an edge is true when an edge to the block is taken that was kept.** -/
theorem holds_TPM_iff {a b : Nat} (hedge : F.Edge a b) :
    (∀ p ∈ (DefaultPredicateAnalysis.TPM (F.block a).terminator b).toList, V.holds p = true) ↔
      ∃ i, V.Takes (F.block a).terminator i ∧ (F.successors a)[i]? = some b ∧ Kept F a i := by
  have hmem : b ∈ (F.block a).terminator.successors := hedge
  unfold Kept Function.successors
  rcases (F.block a).terminator.successors_cases with ⟨succ, hbr⟩ | heq
  · rw [hbr, TerminatorInst.successors, List.mem_singleton] at hmem
    subst hmem
    rw [hbr]
    refine ⟨fun _ => ⟨0, rfl, rfl, fun j hj hjb => ?_⟩, fun _ p hp => absurd hp List.not_mem_nil⟩
    obtain ⟨j, rfl⟩ := Nat.exists_eq_add_of_lt hj
    rw [TerminatorInst.successors, Nat.zero_add] at hjb
    exact absurd hjb.symm (Option.some_ne_none b)
  · rw [heq] at hmem ⊢
    have hholds : ∀ i e, (DefaultPredicateAnalysis.edgePredicates (F.block a).terminator)[i]? =
        some e → e.1 = b → (∀ j, i < j → ((DefaultPredicateAnalysis.edgePredicates
          (F.block a).terminator).map Prod.fst)[j]? ≠ some b) →
        ((∀ p ∈ (DefaultPredicateAnalysis.TPM (F.block a).terminator b).toList,
          V.holds p = true) ↔ V.Takes (F.block a).terminator i) := by
      rintro i e he rfl hlast
      rw [TPM_eq_of_kept he hlast, takes_iff he, Option.toList_some]
      exact ⟨fun h => h _ List.mem_cons_self, fun h p hp => List.mem_singleton.mp hp ▸ h⟩
    constructor
    · intro h
      obtain ⟨i, hi, hlast⟩ := exists_last hmem
      obtain ⟨e, he, heb⟩ := Option.map_eq_some_iff.mp ((List.getElem?_map ..).symm.trans hi)
      exact ⟨i, (hholds i e he heb hlast).mp h, hi, by rwa [hi]⟩
    · rintro ⟨i, htakes, hi, hkept⟩
      obtain ⟨e, he, heb⟩ := Option.map_eq_some_iff.mp ((List.getElem?_map ..).symm.trans hi)
      exact (hholds i e he heb (by rwa [hi] at hkept)).mpr htakes

/-- The predicates of the phi nodes are true. -/
theorem EnteredFrom.holds_PPM {a : Nat} {phis : List PHINode} (h : V.EnteredFrom a phis) :
    ∀ p ∈ phis.flatMap fun phi => (DefaultPredicateAnalysis.PPM phi a).toList,
      V.holds p = true := by
  intro p hp
  obtain ⟨phi, hphi, hp⟩ := List.mem_flatMap.mp hp
  rw [Option.mem_toList] at hp
  rcases DefaultPredicateAnalysis.mem_of_write hp with hentry | hnone
  · obtain ⟨e, he, heq⟩ := List.mem_map.mp hentry
    obtain ⟨rfl, rfl⟩ := Prod.mk.inj heq
    rw [V.holds_equality, decide_eq_true_iff]
    exact h phi hphi e he rfl
  · exact absurd hnone.symm (Option.some_ne_none p)

/-! ## The predicates along an execution -/

/-- Some path of the language is true. -/
def Satisfies (V : Valuation) (L : Language Predicate) : Prop :=
  ∃ p ∈ L, ∀ x ∈ p, V.holds x = true

theorem Satisfies.mul {L M : Language Predicate} (hL : V.Satisfies L) (hM : V.Satisfies M) :
    V.Satisfies (L * M) := by
  obtain ⟨p, hp, hpV⟩ := hL
  obtain ⟨q, hq, hqV⟩ := hM
  refine ⟨p ++ q, Language.append_mem_mul hp hq, fun x hx => ?_⟩
  rcases List.mem_append.mp hx with hx | hx
  · exact hpV x hx
  · exact hqV x hx

theorem satisfies_basic {data : List Predicate} (h : ∀ x ∈ data, V.holds x = true) :
    V.Satisfies (basic data).language := ⟨data, mem_paths_basic.mpr rfl, h⟩

theorem satisfies_one : V.Satisfies 1 :=
  ⟨[], Language.nil_mem_one, fun _ hx => absurd hx List.not_mem_nil⟩

theorem satisfies_language_iff {s : PredicateState Predicate} :
    V.Satisfies s.language ↔ s.holds V.holds = true := by
  simp only [holds_iff_language, List.all_eq_true]
  rfl

theorem Executed.satisfies {post : Bool} {I : Instruction} (h : V.Executed post I) :
    V.Satisfies (afterLanguage post I) := by
  refine Satisfies.mul (Satisfies.mul (satisfies_basic h.PM) ?_) ?_
  · have hcall := h.call
    cases hI : I.call with
    | none => exact satisfies_one
    | some callState => exact satisfies_language_iff.mpr (hcall callState hI)
  · cases hpost : post with
    | false => exact satisfies_one
    | true => exact satisfies_basic (h.PostPM hpost)

theorem satisfies_blockLanguage {post : Bool} {Is : List Instruction}
    (h : ∀ I ∈ Is, V.Executed post I) : V.Satisfies (blockLanguage post Is) := by
  induction Is with
  | nil => exact satisfies_one
  | cons I rest ih =>
      exact (h I List.mem_cons_self).satisfies.mul
        (ih fun J hJ => h J (List.mem_cons_of_mem I hJ))

theorem ExecutedUpTo.satisfies {post : Bool} {Is : List Instruction} {k : Nat}
    (h : V.ExecutedUpTo post Is k) : V.Satisfies (prefixLanguage post Is k) := by
  induction Is generalizing k with
  | nil => exact satisfies_one
  | cons I rest ih =>
      cases k with
      | zero => exact satisfies_basic (h.at_ I rfl)
      | succ k =>
          refine (h.before I List.mem_cons_self).satisfies.mul (ih ⟨fun J hJ => ?_, h.at_⟩)
          exact h.before J (List.mem_cons_of_mem I hJ)

/-! ## The walk of an execution -/

theorem Reaches.follows {post : Bool} {b : Nat} {w : List (Nat × Nat)}
    (h : V.Reaches F post b w) : V.Follows F b w := by
  induction h with
  | entry _ => exact Follows.entry
  | edge _ _ htakes hsucc _ ih => exact Follows.edge ih htakes hsucc

/-- **An execution that loses no edge satisfies a path into its block.** -/
theorem Reaches.satisfies {post : Bool} {b : Nat} {w : List (Nat × Nat)}
    (h : V.Reaches F post b w) (hkept : ∀ e ∈ w, Kept F e.1 e.2) :
    V.Satisfies (entering F post b) := by
  induction h with
  | entry hinitial =>
      obtain ⟨p, hp, hpV⟩ := satisfies_language_iff.mpr hinitial
      exact ⟨p, Enters.entry hp, hpV⟩
  | @edge a b i w _ hexecuted htakes hsucc hphis ih =>
      rw [List.forall_mem_cons] at hkept
      obtain ⟨p, hp, hpV⟩ := ih hkept.2
      obtain ⟨q, hq, hqV⟩ := satisfies_blockLanguage hexecuted
      have hedge : F.Edge a b := List.mem_of_getElem? hsucc
      refine ⟨p ++ q ++ edgePart F a b, Enters.edge hp hq hedge, fun x hx => ?_⟩
      rcases List.mem_append.mp hx with hx | hx
      · rcases List.mem_append.mp hx with hx | hx
        · exact hpV x hx
        · exact hqV x hx
      · rcases List.mem_append.mp hx with hx | hx
        · exact (holds_TPM_iff hedge).mpr ⟨i, htakes, hsucc, hkept.1⟩ x hx
        · exact hphis.holds_PPM x hx

/-- A path into a block that is true follows edges that were kept. -/
theorem exists_follows {post : Bool} {b : Nat} {p : List Predicate} (hp : Enters F post b p)
    (hV : ∀ x ∈ p, V.holds x = true) :
    ∃ w, V.Follows F b w ∧ ∀ e ∈ w, Kept F e.1 e.2 := by
  induction hp with
  | entry _ => exact ⟨[], Follows.entry, fun e he => absurd he List.not_mem_nil⟩
  | @edge a b p q _ _ hedge ih =>
      obtain ⟨w, hw, hkept⟩ := ih fun x hx =>
        hV x (List.mem_append_left _ (List.mem_append_left _ hx))
      obtain ⟨i, htakes, hsucc, hlast⟩ := holds_TPM_iff hedge |>.mp fun x hx =>
        hV x (List.mem_append_right _ (List.mem_append_left _ hx))
      exact ⟨(a, i) :: w, hw.edge htakes hsucc, List.forall_mem_cons.mpr ⟨hlast, hkept⟩⟩

section Unique

variable (hdiffer : ∀ a, V.CasesDiffer (F.block a).terminator)

include hdiffer

theorem Follows.unique_of_length {b b' : Nat} {w w' : List (Nat × Nat)} (h : V.Follows F b w)
    (h' : V.Follows F b' w') (hlength : w.length = w'.length) : b = b' ∧ w = w' := by
  induction h generalizing b' w' with
  | entry =>
      cases h' with
      | entry => exact ⟨rfl, rfl⟩
      | edge _ _ _ => exact absurd hlength (by simp)
  | edge hw htakes hsucc ih =>
      cases h' with
      | entry => exact absurd hlength (by simp)
      | edge hw' htakes' hsucc' =>
          obtain ⟨rfl, rfl⟩ := ih hw' (Nat.succ.inj hlength)
          obtain rfl := htakes.unique (hdiffer _) htakes'
          exact ⟨Option.some.inj (hsucc.symm.trans hsucc'), rfl⟩

omit hdiffer in
/-- The walk passes a block for every number of edges up to its own, and comes no closer to the
entry again. -/
theorem Follows.exists_of_lt {rank : Nat → Nat} (hrank : ∀ a, ∀ b ∈ F.successors a, rank a < rank b)
    {b : Nat} {w : List (Nat × Nat)} (h : V.Follows F b w) {n : Nat} (hn : n < w.length) :
    ∃ c v, V.Follows F c v ∧ v.length = n ∧ rank c < rank b := by
  induction h with
  | entry => exact absurd hn (Nat.not_lt_zero n)
  | @edge a b i w hw _ hsucc ih =>
      have hlt := hrank a b (List.mem_of_getElem? hsucc)
      rcases Nat.lt_or_eq_of_le (Nat.le_of_lt_succ hn) with hlt' | rfl
      · obtain ⟨c, v, hv, hlength, hc⟩ := ih hlt'
        exact ⟨c, v, hv, hlength, hc.trans hlt⟩
      · exact ⟨a, w, hw, rfl, hlt⟩

/-- **There is one way to follow the valuation to a block.** -/
theorem Follows.unique {b : Nat} {w w' : List (Nat × Nat)} (h : V.Follows F b w)
    (h' : V.Follows F b w') : w = w' := by
  obtain ⟨rank, hrank⟩ := F.acyclic
  rcases Nat.lt_trichotomy w.length w'.length with hlt | heq | hlt
  · obtain ⟨c, v, hv, hlength, hc⟩ := h'.exists_of_lt hrank hlt
    obtain ⟨rfl, -⟩ := h.unique_of_length hdiffer hv hlength.symm
    exact absurd hc (Nat.lt_irrefl _)
  · exact (h.unique_of_length hdiffer h' heq).2
  · obtain ⟨c, v, hv, hlength, hc⟩ := h.exists_of_lt hrank hlt
    obtain ⟨rfl, -⟩ := h'.unique_of_length hdiffer hv hlength.symm
    exact absurd hc (Nat.lt_irrefl _)

/-- **The paths to an instruction cover an execution exactly when all its edges were kept.** -/
theorem Reaches.satisfies_iff {post : Bool} {b k : Nat} {w : List (Nat × Nat)}
    (h : V.Reaches F post b w) (hk : V.ExecutedUpTo post (F.block b).instructions k) :
    V.Satisfies (entering F post b * prefixLanguage post (F.block b).instructions k) ↔
      ∀ e ∈ w, Kept F e.1 e.2 := by
  constructor
  · rintro ⟨_, hmem, hV⟩
    obtain ⟨p, hp, q, -, rfl⟩ := Language.mem_mul.mp hmem
    obtain ⟨w', hw', hkept⟩ := exists_follows hp fun x hx => hV x (List.mem_append_left _ hx)
    rwa [h.follows.unique hdiffer hw']
  · exact fun hkept => (h.satisfies hkept).mul hk.satisfies

end Unique

theorem satisfies_map {RR : Predicate → Predicate} (hRR : ∀ p, V.holds (RR p) = V.holds p)
    {L : Language Predicate} : V.Satisfies (Language.map RR L) ↔ V.Satisfies L := by
  constructor
  · rintro ⟨_, ⟨p, hp, rfl⟩, hV⟩
    exact ⟨p, hp, fun x hx => hRR x ▸ hV (RR x) (List.mem_map_of_mem hx)⟩
  · rintro ⟨p, hp, hV⟩
    refine ⟨p.map RR, ⟨p, hp, rfl⟩, fun y hy => ?_⟩
    obtain ⟨x, hx, rfl⟩ := List.mem_map.mp hy
    exact (hRR x).trans (hV x hx)

/-! ## The states of `OneForAll` -/

/-- The valuation satisfies the state that is handed out for the instruction. -/
def Covered (V : Valuation) (P : Pass F) (st : OneForAll.State) (b k : Nat) : Prop :=
  ∃ st' s, OneForAll.getInstructionState P st b k = some (st', s) ∧ s.holds V.holds = true

/-- **An execution that reaches an instruction satisfies the state handed out for it exactly when
every edge on its way was kept and every block that leads to the instruction can be processed.** -/
theorem covered_iff {P : Pass F} (hcheck : P.checkUnreachable = false)
    (hRR : ∀ p, V.holds (P.RR p) = V.holds p)
    (hdiffer : ∀ a, V.CasesDiffer (F.block a).terminator) {st : OneForAll.State}
    (hasked : OneForAll.Asked P st) {b k : Nat} (hlt : k < (F.block b).instructions.length)
    {w : List (Nat × Nat)} (hreaches : V.Reaches F P.assumeDefectsTriggerOnce b w)
    (hk : V.ExecutedUpTo P.assumeDefectsTriggerOnce (F.block b).instructions k) :
    V.Covered P st b k ↔ (∀ e ∈ w, Kept F e.1 e.2) ∧
      ∀ c, LeadsTo F c b → Processable F P.assumeDefectsTriggerOnce c := by
  have hgood := hasked.good hcheck
  have hb : b < F.blocks.length := by
    cases hreaches with
    | entry _ => exact F.entry_lt
    | edge _ _ _ hsucc _ => exact (Function.edge_lt (List.mem_of_getElem? hsucc)).2
  have hstate : (∀ c, LeadsTo F c b → Processable F P.assumeDefectsTriggerOnce c) →
      (V.Covered P st b k ↔ ∀ e ∈ w, Kept F e.1 e.2) := by
    intro hprocessable
    obtain ⟨st', s, hrun, hlanguage⟩ :=
      OneForAll.getInstructionState_spec hcheck hgood hlt hprocessable hb
    calc V.Covered P st b k ↔ s.holds V.holds = true := by
          simp only [Covered, hrun, Option.some.injEq, Prod.mk.injEq]
          exact ⟨fun ⟨_, _, ⟨_, hs⟩, h⟩ => hs ▸ h, fun h => ⟨st', s, ⟨rfl, rfl⟩, h⟩⟩
      _ ↔ V.Satisfies s.language := satisfies_language_iff.symm
      _ ↔ V.Satisfies (entering F P.assumeDefectsTriggerOnce b *
            prefixLanguage P.assumeDefectsTriggerOnce (F.block b).instructions k) := by
          rw [hlanguage, satisfies_map hRR]
      _ ↔ ∀ e ∈ w, Kept F e.1 e.2 := hreaches.satisfies_iff hdiffer hk
  constructor
  · rintro hcovered
    have hprocessable : ∀ c, LeadsTo F c b → Processable F P.assumeDefectsTriggerOnce c := by
      intro c hc
      by_contra hnot
      obtain ⟨st', s, hrun, -⟩ := hcovered
      have hnone := OneForAll.getInstructionState_eq_none hcheck hgood hc hnot hb k
      exact absurd (hnone.symm.trans hrun) (Option.some_ne_none _).symm
    exact ⟨(hstate hprocessable).mp hcovered, hprocessable⟩
  · rintro ⟨hkept, hprocessable⟩
    exact (hstate hprocessable).mpr hkept

/-! ### A branch with one target -/

/-- The value of a term when the flag has the given one. -/
def flagValue (flag : Bool) (t : Term) : Int :=
  match t.cls with
  | .opaqueBoolConstant b => b.toInt
  | _ => flag.toInt

/-- The valuation in which the flag has a value. -/
def ofFlag (flag : Bool) : Valuation where
  value := flagValue flag
  holds
    | .equality _ lhv rhv => decide (flagValue flag lhv = flagValue flag rhv)
    | .defaultSwitchCase _ cond cases =>
      cases.all fun c => decide (flagValue flag cond ≠ flagValue flag c)
    | _ => true
  holds_equality _ _ _ := rfl
  holds_defaultSwitchCase _ _ _ := rfl
  true_ne_false := Int.one_ne_zero

/-- With both values of the flag the branch reaches the second block. -/
theorem reaches_behind_branch (flag : Bool) (i : Nat) (hi : i = if flag then 0 else 1) :
    (ofFlag flag).Reaches (twoBlocks branching branching_successors) false 1 [(0, i)] := by
  refine Reaches.edge (Reaches.entry rfl) (fun I hI => ?_) ?_ ?_ fun phi hphi => ?_
  · rw [show I = {} from List.mem_singleton.mp hI]
    exact ⟨fun p hp => absurd hp List.not_mem_nil, fun c hc => absurd hc.symm (Option.some_ne_none c),
      fun h => absurd h Bool.false_ne_true⟩
  · cases flag with
    | true => exact Or.inl ⟨hi, rfl⟩
    | false => exact Or.inr ⟨hi, rfl⟩
  · cases flag with
    | true => exact hi ▸ rfl
    | false => exact hi ▸ rfl
  · exact absurd hphi List.not_mem_nil

/-- The instruction of the second block. -/
theorem executedUpTo_behind_branch (V : Valuation) : V.ExecutedUpTo false
    ((twoBlocks branching branching_successors).block 1).instructions 0 :=
  ⟨fun I hI => absurd hI List.not_mem_nil, fun I hI p hp => by
    obtain rfl : {} = I := Option.some.inj hI
    exact absurd hp List.not_mem_nil⟩

/-- Neither of the blocks ends in a switch. -/
theorem casesDiffer_behind_branch (V : Valuation) (a : Nat) :
    V.CasesDiffer ((twoBlocks branching branching_successors).block a).terminator := by
  rcases a with _ | _ | a
  · trivial
  · trivial
  · trivial

/-- When the flag is false, the execution is covered. -/
theorem covered_when_false : (ofFlag false).Covered branchingPass OneForAll.State.init 1 0 := by
  refine (covered_iff rfl (fun _ => rfl) (casesDiffer_behind_branch _) Reachable.init
    Nat.zero_lt_one (reaches_behind_branch false 1 rfl) (executedUpTo_behind_branch _)).mpr
    ⟨fun e he => ?_, fun c => processable_branching⟩
  obtain rfl := List.mem_singleton.mp he
  intro j hj hsame
  -- there are only two edges
  obtain ⟨hlt, -⟩ := List.getElem?_eq_some_iff.mp (show ([1, 1] : List Nat)[j]? = some 1 from hsame)
  exact absurd hlt (Nat.not_lt_of_le hj)

/-- **When the flag is true, the execution reaches the second block and is not covered.** -/
theorem true_branch_lost :
    (ofFlag true).Reaches (twoBlocks branching branching_successors) false 1 [(0, 0)] ∧
      (ofFlag true).ExecutedUpTo false
        ((twoBlocks branching branching_successors).block 1).instructions 0 ∧
      ¬ (ofFlag true).Covered branchingPass OneForAll.State.init 1 0 := by
  have hreaches := reaches_behind_branch true 0 rfl
  have hexecuted := executedUpTo_behind_branch (ofFlag true)
  refine ⟨hreaches, hexecuted, ?_⟩
  rintro ⟨st', s, hrun, hholds⟩
  obtain ⟨st'', s', hrun', hlanguage⟩ := OneForAll.getInstructionState_spec
    (P := branchingPass) rfl OneForAll.good_init Nat.zero_lt_one
    (fun c => processable_branching) Nat.one_lt_two
  obtain ⟨rfl, rfl⟩ := Prod.mk.inj (Option.some.inj (hrun.symm.trans hrun'))
  have hsatisfies := satisfies_language_iff.mpr hholds
  rw [hlanguage, @satisfies_map _ branchingPass.RR fun _ => rfl] at hsatisfies
  have hkept := (hreaches.satisfies_iff (casesDiffer_behind_branch _) hexecuted).mp hsatisfies (0, 0)
    List.mem_cons_self
  exact hkept 1 Nat.zero_lt_one rfl

end Valuation

end Borealis
