import Borealis.PredicateStateAnalysis.Agreement
import Borealis.PredicateStateAnalysis.TopDown

/-!
# The paths of the final state

The final state of `OneForAllTD` has a mark for every instruction without predicates.  Once they are
erased its paths are the predicate paths of the function, from the entry to an end
(`finalState_paths_iff`): the paths that the other analyses measure their states against.
-/

namespace Borealis

open PredicateState PredicateStateBuilder Lib

variable {F : Function}

/-! ## From the entry -/

/-- The predicate paths into a block are the ways to it behind the initial state. -/
theorem mem_entering_iff_between {b : Nat} {p : List Predicate} :
    p ∈ entering F false b ↔ p ∈ F.initialState.language *
      between F (fun a => (F.block a).instructions) 0 (some b) := by
  constructor
  · intro h
    induction h with
    | @entry p hp =>
        rw [← List.append_nil p]
        exact Language.append_mem_mul hp .done
    | @edge a c p q _ hq hedge ih =>
        obtain ⟨p₁, hp₁, p₂, hp₂, rfl⟩ := Language.mem_mul.mp ih
        have hstep : Between F (fun a => (F.block a).instructions) a (some c)
            (q ++ (edgePart F a c ++ [])) := .step hq hedge .done
        have happend := Between.append hp₂ hstep
        rw [List.append_nil] at happend
        rw [List.append_assoc, List.append_assoc]
        exact Language.append_mem_mul hp₁ happend
  · intro h
    obtain ⟨p₁, hp₁, p₂, hp₂, rfl⟩ := Language.mem_mul.mp h
    have hgo : ∀ {a : Nat} {target : Option Nat} {p₁ p₂ : List Predicate},
        Between F (fun a => (F.block a).instructions) a target p₂ → target = some b →
          Enters F false a p₁ → Enters F false b (p₁ ++ p₂) := by
      intro a target p₁ p₂ hbetween
      induction hbetween generalizing p₁ with
      | done =>
          rintro heq hentered
          obtain rfl := Option.some.inj heq
          rwa [List.append_nil]
      | exit _ _ =>
          rintro heq
          cases heq
      | step hq hedge _ ih =>
          intro heq hentered
          have hnext := ih heq (Enters.edge hentered hq hedge)
          rwa [List.append_assoc, List.append_assoc] at hnext
    exact hgo hp₂ rfl (.entry hp₁)

/-- A way to the end of the function is a way to a block without successors, and through it. -/
theorem mem_between_none {M : Nat → List Instruction} {a : Nat} (ha : a < F.blocks.length)
    {p : List Predicate} : p ∈ between F M a none ↔ ∃ e, e < F.blocks.length ∧
      F.successors e = [] ∧ p ∈ between F M a (some e) * blockLanguage false (M e) := by
  constructor
  · intro h
    generalize ht : (none : Option Nat) = target at h
    induction h with
    | done => cases ht
    | @exit b q hsucc hq => exact ⟨b, ha, hsucc, Language.append_mem_mul Between.done hq⟩
    | @step b c target q p hq hedge _ ih =>
        obtain ⟨e, he, hsucc, hp⟩ := ih (Function.edge_lt hedge).2 ht
        obtain ⟨p₁, hp₁, p₂, hp₂, rfl⟩ := Language.mem_mul.mp hp
        refine ⟨e, he, hsucc, ?_⟩
        rw [← List.append_assoc, ← List.append_assoc]
        have hstep : Between F M b (some e) (q ++ (edgePart F b c ++ p₁)) := .step hq hedge hp₁
        rw [← List.append_assoc] at hstep
        exact Language.append_mem_mul hstep hp₂
  · rintro ⟨e, -, hsucc, hp⟩
    obtain ⟨p₁, hp₁, p₂, hp₂, rfl⟩ := Language.mem_mul.mp hp
    exact Between.append hp₁ (.exit hsucc hp₂)

/-! ## Erasing the marks -/

namespace OneForAllTD

/-- The paths without their marks. -/
def erased (L : Language Predicate) : Language Predicate :=
  {q | ∃ p ∈ L, p.filter (fun x => !isMark x) = q}

theorem mem_erased {L : Language Predicate} {q : List Predicate} :
    q ∈ erased L ↔ ∃ p ∈ L, p.filter (fun x => !isMark x) = q := Iff.rfl

theorem erased_mul (A B : Language Predicate) : erased (A * B) = erased A * erased B := by
  ext q
  rw [mem_erased, Language.mem_mul]
  constructor
  · rintro ⟨_, hmem, rfl⟩
    obtain ⟨a, ha, b, hb, rfl⟩ := Language.mem_mul.mp hmem
    exact ⟨_, ⟨a, ha, rfl⟩, _, ⟨b, hb, rfl⟩, (List.filter_append a b).symm⟩
  · rintro ⟨_, ⟨a, ha, rfl⟩, _, ⟨b, hb, rfl⟩, rfl⟩
    exact ⟨a ++ b, Language.append_mem_mul ha hb, List.filter_append a b⟩

/-- Where there are no marks nothing is erased. -/
theorem erased_of_unmarked {L : Language Predicate}
    (h : ∀ p ∈ L, ∀ x ∈ p, isMark x = false) : erased L = L := by
  have hfilter : ∀ p ∈ L, p.filter (fun x => !isMark x) = p := fun p hp =>
    List.filter_eq_self.mpr fun x hx => by rw [h p hp x hx]; rfl
  ext q
  rw [mem_erased]
  constructor
  · rintro ⟨p, hp, rfl⟩
    rwa [hfilter p hp]
  · intro hq
    exact ⟨q, hq, hfilter q hq⟩

theorem language_eraseMarks (s : PredicateState Predicate) :
    (eraseMarks s).language = erased s.language := by
  have hfilterMap : ∀ data : List Predicate,
      data.filterMap (fun p => if isMark p then none else some p) =
        data.filter fun x => !isMark x := by
    intro data
    induction data with
    | nil => rfl
    | cons x data ih =>
        cases hx : isMark x <;> simp [hx, ih]
  unfold eraseMarks
  induction s using induction with
  | basic data =>
      ext q
      rw [filterMap, mem_language, mem_paths_basic, hfilterMap, mem_erased]
      constructor
      · rintro rfl
        exact ⟨data, mem_paths_basic.mpr rfl, rfl⟩
      · rintro ⟨p, hp, rfl⟩
        rw [mem_paths_basic.mp hp]
  | chain base curr hbase hcurr => rw [filterMap, language_chain, hbase, hcurr, language_chain,
      erased_mul]
  | choice choices ih =>
      ext q
      rw [filterMap, filterMapAll_eq_map, mem_language_choice, mem_erased]
      constructor
      · rintro ⟨_, hmem, hq⟩
        obtain ⟨c, hc, rfl⟩ := List.mem_map.mp hmem
        rw [ih c hc] at hq
        obtain ⟨p, hp, rfl⟩ := hq
        exact ⟨p, mem_language_choice.mpr ⟨c, hc, hp⟩, rfl⟩
      · rintro ⟨p, hp, rfl⟩
        obtain ⟨c, hc, hp⟩ := mem_language_choice.mp hp
        refine ⟨_, List.mem_map_of_mem hc, ?_⟩
        rw [ih c hc]
        exact ⟨p, hp, rfl⟩

/-- The predicate analyses have made no marks. -/
structure Unmarked (F : Function) : Prop where
  initial : ∀ x ∈ F.initialState.preds, isMark x = false
  instructions : ∀ b, ∀ I ∈ (F.block b).instructions, (∀ x ∈ I.PM, isMark x = false) ∧
    ∀ callState, I.call = some callState → ∀ x ∈ callState.1.preds, isMark x = false

/-- The predicates on a path occur in the state. -/
theorem mem_preds_of_mem_language {s : PredicateState Predicate} {p : List Predicate}
    (hp : p ∈ s.language) {x : Predicate} (hx : x ∈ p) : x ∈ s.preds := by
  induction s using induction generalizing p with
  | basic data => exact mem_paths_basic.mp hp ▸ hx
  | chain base curr hbase hcurr =>
      rw [language_chain] at hp
      obtain ⟨q, hq, r, hr, rfl⟩ := Language.mem_mul.mp hp
      rw [preds]
      rcases List.mem_append.mp hx with hx | hx
      · exact List.mem_append_left _ (hbase hq hx)
      · exact List.mem_append_right _ (hcurr hr hx)
  | choice choices ih =>
      obtain ⟨c, hc, hp⟩ := mem_language_choice.mp hp
      rw [preds, predsAll_eq_flatMap]
      exact List.mem_flatMap.mpr ⟨c, hc, ih c hc hp hx⟩

/-- The predicates of an edge are no marks. -/
theorem isMark_edgePart {a b : Nat} {x : Predicate} (hx : x ∈ edgePart F a b) :
    isMark x = false := by
  rcases List.mem_append.mp hx with hx | hx
  · rw [Option.mem_toList] at hx
    rcases DefaultPredicateAnalysis.mem_of_write hx with hmem | hnone
    · cases hterminator : (F.block a).terminator with
      | noSuccessor => rw [hterminator] at hmem; exact absurd hmem List.not_mem_nil
      | br succ => rw [hterminator] at hmem; exact absurd hmem List.not_mem_nil
      | condBr cond trueSucc falseSucc =>
          rw [hterminator] at hmem
          simp only [DefaultPredicateAnalysis.edgePredicates, List.mem_cons, Prod.mk.injEq,
            List.not_mem_nil, or_false] at hmem
          rcases hmem with ⟨-, rfl⟩ | ⟨-, rfl⟩ <;> rfl
      | switch cond cases defaultDest =>
          rw [hterminator] at hmem
          simp only [DefaultPredicateAnalysis.edgePredicates, List.mem_append, List.mem_map,
            Prod.mk.injEq, List.mem_singleton] at hmem
          rcases hmem with ⟨_, -, -, rfl⟩ | ⟨-, rfl⟩ <;> rfl
    · cases hnone
  · obtain ⟨phi, -, hx⟩ := List.mem_flatMap.mp hx
    rw [Option.mem_toList] at hx
    rcases DefaultPredicateAnalysis.mem_of_write hx with hmem | hnone
    · obtain ⟨e, -, he⟩ := List.mem_map.mp hmem
      rw [← (Prod.mk.inj he).2]
      rfl
    · cases hnone

/-! ### Blocks with their marks -/

theorem erased_one : erased 1 = 1 :=
  erased_of_unmarked fun _ hp _ hx => by
    rw [(Language.mem_one _).mp hp] at hx
    exact absurd hx List.not_mem_nil

theorem erased_basic_of_unmarked {data : List Predicate} (h : ∀ x ∈ data, isMark x = false) :
    erased (basic data).language = (basic data).language :=
  erased_of_unmarked fun _ hp x hx => h x (mem_paths_basic.mp hp ▸ hx)

/-- A mark stands where there are no predicates. -/
theorem erased_basic_marked {I : Instruction} (h : ∀ x ∈ I.PM, isMark x = false)
    (address : Nat → Nat → Int) (BB k : Nat) :
    erased (basic (marked address BB k I).PM).language = (basic I.PM).language := by
  cases hPM : I.PM with
  | nil =>
      have hmarked : (marked address BB k I).PM = [markOf address BB k] := by simp [marked, hPM]
      rw [hmarked]
      ext q
      rw [mem_erased, mem_language, mem_paths_basic]
      constructor
      · rintro ⟨p, hp, rfl⟩
        rw [mem_paths_basic.mp hp]
        rfl
      · rintro rfl
        exact ⟨_, mem_paths_basic.mpr rfl, rfl⟩
  | cons x PM =>
      have hmarked : (marked address BB k I).PM = x :: PM := by simp [marked, hPM]
      rw [hmarked]
      exact erased_basic_of_unmarked (hPM ▸ h)

/-- An instruction is marked like one of the function. -/
def Unmarks (I J : Instruction) : Prop :=
  erased (basic J.PM).language = (basic I.PM).language ∧
    erased (afterLanguage false J) = afterLanguage false I

theorem unmarks_marked (h : Unmarked F) {b : Nat} {I : Instruction}
    (hI : I ∈ (F.block b).instructions) (address : Nat → Nat → Int) (BB k : Nat) :
    Unmarks I (marked address BB k I) := by
  obtain ⟨hPM, hcall⟩ := h.instructions b I hI
  have hbasic := erased_basic_marked hPM address BB k
  refine ⟨hbasic, ?_⟩
  have hcallState : erased (I.call.elim 1 fun callState => callState.1.language) =
      I.call.elim 1 fun callState => callState.1.language := by
    cases hI : I.call with
    | none => exact erased_one
    | some callState =>
        exact erased_of_unmarked fun _ hp x hx =>
          hcall callState hI x (mem_preds_of_mem_language hp hx)
  show erased ((basic (marked address BB k I).PM).language *
    (I.call.elim 1 fun callState => callState.1.language) * 1) = _
  rw [mul_one, erased_mul, hbasic, hcallState]
  exact (mul_one _).symm

theorem erased_blockLanguage {Is : List Instruction} {f : Nat → Instruction → Instruction}
    (h : ∀ k, ∀ I ∈ Is, Unmarks I (f k I)) :
    erased (blockLanguage false (Is.mapIdx f)) = blockLanguage false Is := by
  induction Is generalizing f with
  | nil => exact erased_one
  | cons I Is ih =>
      rw [List.mapIdx_cons, blockLanguage, erased_mul, (h 0 I List.mem_cons_self).2,
        ih fun k J hJ => h (k + 1) J (List.mem_cons_of_mem I hJ), blockLanguage]

theorem erased_between (h : Unmarked F) (address : Nat → Nat → Int) (b : Nat)
    (target : Option Nat) : erased (between F (markedInstructions F address) b target) =
      between F (fun a => (F.block a).instructions) b target := by
  have hblock : ∀ a, erased (blockLanguage false (markedInstructions F address a)) =
      blockLanguage false (F.block a).instructions := fun a =>
    erased_blockLanguage fun k I hI => unmarks_marked h hI address a k
  have hedge : ∀ a c, (edgePart F a c).filter (fun x => !isMark x) = edgePart F a c := fun a c =>
    List.filter_eq_self.mpr fun x hx => by rw [isMark_edgePart hx]; rfl
  ext q
  rw [mem_erased]
  constructor
  · rintro ⟨p, hp, rfl⟩
    induction hp with
    | done => exact Between.done
    | @exit a q hsucc hq => exact Between.exit hsucc (hblock a ▸ ⟨q, hq, rfl⟩)
    | @step a c target q p hq hE _ ih =>
        rw [List.filter_append, List.filter_append, hedge]
        exact Between.step (hblock a ▸ ⟨q, hq, rfl⟩) hE ih
  · intro hq
    induction hq with
    | done => exact ⟨[], Between.done, rfl⟩
    | @exit a q hsucc hq =>
        obtain ⟨p, hp, rfl⟩ : q ∈ erased (blockLanguage false (markedInstructions F address a)) :=
          (hblock a).symm ▸ hq
        exact ⟨p, Between.exit hsucc hp, rfl⟩
    | @step a c target q p hq hE _ ih =>
        obtain ⟨q, hq', rfl⟩ : q ∈ erased (blockLanguage false (markedInstructions F address a)) :=
          (hblock a).symm ▸ hq
        obtain ⟨r, hr, rfl⟩ := ih
        refine ⟨q ++ (edgePart F a c ++ r), Between.step hq' hE hr, ?_⟩
        rw [List.filter_append, List.filter_append, hedge]

/-- The predicate paths of a function, from the entry to an end. -/
def functionLanguage (F : Function) : Language Predicate :=
  {p | ∃ e, e < F.blocks.length ∧ F.successors e = [] ∧
    p ∈ entering F false e * blockLanguage false (F.block e).instructions}

/-- The final state is computed, and its paths are those behind the initial state to the end of the
function. -/
theorem finalState_spec (DT : PostDominatorTree F) (address : Nat → Nat → Int) :
    ∃ n s, (∀ fuel ≥ n, finalState DT address fuel = some s) ∧ s.isTidy = true ∧
      s.language = F.initialState.language * between F (markedInstructions F address) 0 none := by
  obtain ⟨R⟩ := exists_ranking F
  -- the end of the function post-dominates everything
  have hend : PostDominates F none 0 := fun l hl => Dominates.root (some 0) l hl
  obtain ⟨body, hbody, hbodyTidy, hbodyLanguage⟩ :=
    @stateBetween_spec F DT address R 0 none F.entry_lt hend
  have htidy := isTidy_add F.initialState_isTidy hbodyTidy
  obtain ⟨s, hs, hmerges⟩ := StateOptimizer.transform_spec htidy
  refine ⟨R.left 0 + 1, s, fun fuel hfuel => ?_, hmerges.isTidy, ?_⟩
  · rw [finalState, hbody fuel (Nat.lt_of_succ_le hfuel)]
    exact hs
  · rw [hmerges.language_eq, language_add F.initialState_isTidy hbodyTidy, hbodyLanguage]

/-- **Without its marks the final state has exactly the predicate paths of the function.** -/
theorem finalState_paths_iff (hF : Unmarked F) (DT : PostDominatorTree F)
    (address : Nat → Nat → Int) : ∃ n s, (∀ fuel ≥ n, finalState DT address fuel = some s) ∧
      ∀ p, p ∈ (eraseMarks s).paths ↔ p ∈ functionLanguage F := by
  obtain ⟨n, s, hs, -, hlanguage⟩ := finalState_spec DT address
  have herased : (eraseMarks s).language = F.initialState.language *
      between F (fun a => (F.block a).instructions) 0 none := by
    rw [language_eraseMarks, hlanguage, erased_mul, erased_between hF, erased_of_unmarked]
    exact fun p hp x hx => hF.initial x (mem_preds_of_mem_language hp hx)
  refine ⟨n, s, hs, fun p => ?_⟩
  rw [← mem_language, herased, Language.mem_mul]
  constructor
  · rintro ⟨q, hq, r, hr, rfl⟩
    obtain ⟨e, he, hsucc, hr⟩ := (mem_between_none F.entry_lt).mp hr
    obtain ⟨r₁, hr₁, r₂, hr₂, rfl⟩ := Language.mem_mul.mp hr
    refine ⟨e, he, hsucc, ?_⟩
    rw [← List.append_assoc]
    exact Language.append_mem_mul
      (mem_entering_iff_between.mpr (Language.append_mem_mul hq hr₁)) hr₂
  · rintro ⟨e, he, hsucc, hp⟩
    obtain ⟨q, hq, r, hr, rfl⟩ := Language.mem_mul.mp hp
    obtain ⟨q₁, hq₁, q₂, hq₂, rfl⟩ := Language.mem_mul.mp (mem_entering_iff_between.mp hq)
    refine ⟨q₁, hq₁, q₂ ++ r, ?_, (List.append_assoc q₁ q₂ r).symm⟩
    exact (mem_between_none F.entry_lt).mpr ⟨e, he, hsucc, Language.append_mem_mul hq₂ hr⟩

/-- The post-dominator tree of two blocks, one behind the other. -/
def twoBlocksPostTree {entry : BasicBlock} {hentry : ∀ b ∈ entry.terminator.successors, b = 1}
    (hsucc : 1 ∈ entry.terminator.successors) : PostDominatorTree (twoBlocks entry hentry) where
  getIDom
    | 0 => some 1
    | _ => none
  isIdom b hb := by
    have hexit : ReverseEdge (twoBlocks entry hentry) none (some 1) := .exit Nat.one_lt_two rfl
    have hedge : ReverseEdge (twoBlocks entry hentry) (some 1) (some 0) := .edge hsucc
    match b, hb with
    | 0, _ =>
        refine ⟨by simp, fun l hl => ?_, fun e he hdom l hl => ?_⟩
        · cases hl with
          | step hwalk hE =>
              cases hE with
              | exit _ hnone =>
                  have hmem : 1 ∈ (twoBlocks entry hentry).successors 0 := hsucc
                  rw [hnone] at hmem
                  exact absurd hmem List.not_mem_nil
              | edge hE =>
                  obtain ⟨-, rfl⟩ := twoBlocks_edge hE
                  exact List.mem_cons_of_mem _ hwalk.self_mem
        · exact (List.mem_cons.mp (hdom _ (hl.step hedge))).resolve_left he
    | 1, _ =>
        refine ⟨by simp, Dominates.root _, fun e he hdom l hl => ?_⟩
        exact (List.mem_cons.mp (hdom _ (hl.step hexit))).resolve_left he

/-- The function that branches to one block only has no marks. -/
theorem unmarked_branching : Unmarked (twoBlocks branching branching_successors) := by
  refine ⟨fun x hx => ?_, fun b I hI => ?_⟩
  · obtain rfl := List.mem_singleton.mp hx
    rfl
  · have hplain : I.PM = [] ∧ I.call = none := by
      match b with
      | 0 | 1 | b + 2 =>
          obtain rfl := List.mem_singleton.mp hI
          exact ⟨rfl, rfl⟩
    refine ⟨fun x hx => ?_, fun callState h => ?_⟩
    · rw [hplain.1] at hx
      exact absurd hx List.not_mem_nil
    · rw [hplain.2] at h
      cases h

theorem finalState_paths_branching : ∃ n s, (∀ fuel ≥ n,
    finalState (@twoBlocksPostTree branching branching_successors List.mem_cons_self)
      (fun BB k => 16 * BB + k) fuel = some s) ∧
      ∀ p, p ∈ (eraseMarks s).paths ↔
        p ∈ functionLanguage (twoBlocks branching branching_successors) :=
  finalState_paths_iff unmarked_branching _ _

end OneForAllTD

end Borealis
