import Borealis.PredicateStateAnalysis.OneForAllTD
import Borealis.State.SliceOn

/-!
# The state between two blocks

`stateBetween` has the predicate paths between its two blocks (`stateBetween_spec`), so that the
final state of the top-down analysis has all predicate paths of the function.

## Strategy

A way from a block to one that post-dominates it passes the immediate post-dominator, and is cut in
two there (`between_split`).  What makes this an argument by recursion is a rank that grows along
the edges: a post-dominator is further down than the block (`rank_lt_of_idom`), and so the fuel is
the number of ranks that are left.
-/

namespace Borealis

open PredicateState PredicateStateBuilder Lib

variable {F : Function}

/-! ## Ranks -/

/-- A rank of the blocks that grows along the edges, and a bound for it. -/
structure Ranking (F : Function) where
  rank : Nat → Nat
  bound : Nat
  lt_of_edge : ∀ {a b : Nat}, F.Edge a b → rank a < rank b
  le_bound : ∀ {b : Nat}, b < F.blocks.length → rank b ≤ bound

theorem exists_ranking (F : Function) : Nonempty (Ranking F) := by
  obtain ⟨rank, hrank⟩ := F.acyclic
  refine ⟨⟨rank, (List.range F.blocks.length).foldr (fun b m => max (rank b) m) 0,
    fun h => hrank _ _ h, fun {b} hb => ?_⟩⟩
  have hmem : b ∈ List.range F.blocks.length := List.mem_range.mpr hb
  generalize List.range F.blocks.length = l at hmem
  induction l with
  | nil => exact absurd hmem List.not_mem_nil
  | cons c l ih =>
      rw [List.foldr_cons]
      rcases List.mem_cons.mp hmem with rfl | hmem
      · exact Nat.le_max_left _ _
      · exact Nat.le_trans (ih hmem) (Nat.le_max_right _ _)

namespace Ranking

variable (R : Ranking F)

/-- The ranks that are left below a block. -/
def left (b : Nat) : Nat := R.bound + 1 - R.rank b

/-- The rank of the vertices of the graph that is turned round. -/
def reverse : Option Nat → Nat
  | none => 0
  | some b => R.left b

variable {R}

theorem left_lt_of_edge {a b : Nat} (h : F.Edge a b) : R.left b < R.left a := by
  have hlt := R.lt_of_edge h
  have hle := R.le_bound (Function.edge_lt h).2
  unfold left
  omega

theorem reverse_lt {x y : Option Nat} (h : ReverseEdge F x y) : R.reverse x < R.reverse y := by
  cases h with
  | @exit b hb _ =>
      have hle := R.le_bound hb
      show 0 < R.left b
      unfold left
      omega
  | edge hedge => exact left_lt_of_edge hedge

end Ranking

/-- From every block the function can come to its end. -/
theorem hasWalk_reverse {b : Nat} (hb : b < F.blocks.length) :
    HasWalk (ReverseEdge F) none (some b) := by
  obtain ⟨R⟩ := exists_ranking F
  induction hn : R.left b using Nat.strong_induction_on generalizing b with
  | _ n ih =>
      rcases hsucc : F.successors b with _ | ⟨c, rest⟩
      · exact HasWalk.root.step (.exit hb hsucc)
      · have hedge : F.Edge b c := by
          rw [Function.Edge, hsucc]
          exact List.mem_cons_self
        have hlt : R.left c < n := hn ▸ Ranking.left_lt_of_edge hedge
        exact (ih _ hlt (Function.edge_lt hedge).2 rfl).step (.edge hedge)

/-- `Dom` is the block or post-dominates it. -/
abbrev PostDominates (F : Function) (Dom : Option Nat) (b : Nat) : Prop :=
  Dominates (ReverseEdge F) none Dom (some b)

theorem PostDominates.of_edge {Dom : Option Nat} {a b : Nat} (h : PostDominates F Dom a)
    (hne : Dom ≠ some a) (hedge : F.Edge a b) : PostDominates F Dom b :=
  Dominates.of_edge h hne (.edge hedge)

/-- A block without successors is post-dominated by the end only. -/
theorem PostDominates.eq_none {Dom : Option Nat} {b : Nat} (h : PostDominates F Dom b)
    (hne : Dom ≠ some b) (hb : b < F.blocks.length) (hsucc : F.successors b = []) : Dom = none := by
  have hmem := h _ (Walk.root.step (.exit hb hsucc))
  rcases List.mem_cons.mp hmem with heq | hmem
  · exact absurd heq hne
  · exact List.mem_singleton.mp hmem

theorem lt_of_hasWalk_reverse {b : Nat} (h : HasWalk (ReverseEdge F) none (some b)) :
    b < F.blocks.length := by
  obtain ⟨l, hl⟩ := h
  cases hl with
  | step _ hedge =>
      cases hedge with
      | exit hb _ => exact hb
      | edge hedge => exact (Function.edge_lt hedge).1

/-- A post-dominator is a block, and further down. -/
theorem PostDominates.left_lt (R : Ranking F) {b d : Nat} (h : PostDominates F (some d) b)
    (hne : d ≠ b) (hb : b < F.blocks.length) : d < F.blocks.length ∧ R.left d < R.left b := by
  have hwalk := hasWalk_reverse hb
  refine ⟨lt_of_hasWalk_reverse (h.hasWalk hwalk), ?_⟩
  have hrank : ∀ x y, ReverseEdge F x y → R.reverse x < R.reverse y :=
    fun _ _ h => Ranking.reverse_lt h
  exact Dominates.rank_lt hrank h hwalk fun heq => hne (Option.some.inj heq)

/-- What post-dominates a block post-dominates its immediate post-dominator, if it is another one. -/
theorem postDominates_idom (DT : PostDominatorTree F) {Dom : Option Nat} {b : Nat}
    (hb : b < F.blocks.length) (h : PostDominates F Dom b) (hne : Dom ≠ some b) :
    Dominates (ReverseEdge F) none Dom (DT.getIDom b) :=
  (DT.isIdom b hb).closest Dom hne h

/-! ## Ways between blocks -/

section Between

variable {M : Nat → List Instruction}

theorem mem_between {b : Nat} {target : Option Nat} {p : List Predicate} :
    p ∈ between F M b target ↔ Between F M b target p := Iff.rfl

/-- Along a way to a block the rank grows. -/
theorem Between.rank_le (R : Ranking F) {b d : Nat} {p : List Predicate}
    (h : Between F M b (some d) p) : R.rank b ≤ R.rank d := by
  generalize ht : some d = target at h
  induction h with
  | done => exact (Option.some.inj ht ▸ Nat.le_refl _)
  | exit _ _ => cases ht
  | step _ hedge _ ih => exact (Nat.le_of_lt (R.lt_of_edge hedge)).trans (ih ht)

/-- A block is not on the way from it to itself again. -/
theorem between_self (b : Nat) : between F M b (some b) = 1 := by
  obtain ⟨R⟩ := exists_ranking F
  ext p
  rw [mem_between, Language.mem_one]
  constructor
  · intro h
    cases h with
    | done => rfl
    | step _ hedge hrest =>
        exact absurd (hrest.rank_le R) (Nat.not_le_of_lt (R.lt_of_edge hedge))
  · rintro rfl
    exact .done

/-- The first block of a way to somewhere else. -/
theorem mem_between_of_ne {b : Nat} {target : Option Nat} (hne : target ≠ some b)
    {p : List Predicate} : p ∈ between F M b target ↔
      (F.successors b = [] ∧ target = none ∧ p ∈ blockLanguage false (M b)) ∨
        ∃ c, F.Edge b c ∧ p ∈ blockLanguage false (M b) *
          ((basic (edgePart F b c)).language * between F M c target) := by
  rw [mem_between]
  constructor
  · intro h
    cases h with
    | done => exact absurd rfl hne
    | exit hsucc hq => exact Or.inl ⟨hsucc, rfl, hq⟩
    | step hq hedge hrest =>
        exact Or.inr ⟨_, hedge, Language.append_mem_mul hq
          (Language.append_mem_mul (mem_paths_basic.mpr rfl) hrest)⟩
  · rintro (⟨hsucc, rfl, hq⟩ | ⟨c, hedge, hp⟩)
    · exact .exit hsucc hq
    · obtain ⟨q, hq, r, hr, rfl⟩ := Language.mem_mul.mp hp
      obtain ⟨e, he, p', hp', rfl⟩ := Language.mem_mul.mp hr
      rw [mem_paths_basic.mp he]
      exact .step hq hedge hp'

/-- Two ways, one behind the other. -/
theorem Between.append {b d : Nat} {target : Option Nat} {p q : List Predicate}
    (hp : Between F M b (some d) p) (hq : Between F M d target q) :
    Between F M b target (p ++ q) := by
  generalize ht : some d = stop at hp
  induction hp with
  | done =>
      obtain rfl := Option.some.inj ht
      exact hq
  | exit _ _ => cases ht
  | step hblock hedge _ ih =>
      rw [List.append_assoc, List.append_assoc]
      exact .step hblock hedge (ih ht)

/-- A way passes every post-dominator of its start that its end post-dominates. -/
theorem Between.exists_split {b d : Nat} {target : Option Nat} {p : List Predicate}
    (h : Between F M b target p) (hb : b < F.blocks.length) (hd : PostDominates F (some d) b)
    (htarget : Dominates (ReverseEdge F) none target (some d)) (hdlt : d < F.blocks.length) :
    ∃ q r, Between F M b (some d) q ∧ Between F M d target r ∧ q ++ r = p := by
  induction h with
  | @done b =>
      obtain ⟨R⟩ := exists_ranking F
      have heq : (some b : Option Nat) = some d :=
        htarget.antisymm (fun _ _ h => Ranking.reverse_lt (R := R) h) hd (hasWalk_reverse hdlt)
      obtain rfl := Option.some.inj heq
      exact ⟨[], [], .done, .done, rfl⟩
  | @exit b q hsucc hq =>
      rcases eq_or_ne d b with rfl | hne
      · exact ⟨[], q, .done, .exit hsucc hq, rfl⟩
      · have hnone := hd.eq_none (fun heq => hne (Option.some.inj heq)) hb hsucc
        cases hnone
  | @step b c target q p hq hedge hrest ih =>
      rcases eq_or_ne d b with rfl | hne
      · exact ⟨[], _, .done, .step hq hedge hrest, rfl⟩
      · have hdc := hd.of_edge (fun heq => hne (Option.some.inj heq)) hedge
        obtain ⟨q', r, hq', hr, rfl⟩ := ih (Function.edge_lt hedge).2 hdc htarget
        refine ⟨q ++ (edgePart F b c ++ q'), r, .step hq hedge hq', hr, ?_⟩
        rw [List.append_assoc, List.append_assoc]

theorem between_split {b d : Nat} {target : Option Nat} (hb : b < F.blocks.length)
    (hd : PostDominates F (some d) b)
    (htarget : Dominates (ReverseEdge F) none target (some d)) (hdlt : d < F.blocks.length) :
    between F M b (some d) * between F M d target = between F M b target := by
  ext p
  rw [Language.mem_mul]
  constructor
  · rintro ⟨q, hq, r, hr, rfl⟩
    exact Between.append hq hr
  · intro hp
    obtain ⟨q, r, hq, hr, heq⟩ := Between.exists_split hp hb hd htarget hdlt
    exact ⟨q, hq, r, hr, heq⟩

end Between

/-! ## The states of the analysis -/

namespace OneForAllTD

variable {DT : PostDominatorTree F} {address : Nat → Nat → Int}

theorem language_foldl_add (preds : List Predicate) {s : PredicateState Predicate}
    (hs : s.isTidy = true) :
    (preds.foldl (fun s pred => add s (basic [pred])) s).isTidy = true ∧
      (preds.foldl (fun s pred => add s (basic [pred])) s).language =
        s.language * (basic preds).language := by
  induction preds generalizing s with
  | nil => exact ⟨hs, by rw [language_basic_nil, mul_one, List.foldl_nil]⟩
  | cons pred preds ih =>
      obtain ⟨htidy, hlanguage⟩ := ih (isTidy_add hs (isTidy_basic [pred]))
      refine ⟨htidy, ?_⟩
      rw [List.foldl_cons, hlanguage, language_add hs (isTidy_basic [pred]), mul_assoc,
        ← language_basic_append, List.singleton_append]

theorem instructionState_spec (I : Instruction) :
    (instructionState I).isTidy = true ∧ (instructionState I).language = afterLanguage false I := by
  obtain ⟨htidy, hlanguage⟩ := language_foldl_add I.PM (isTidy_basic [])
  rw [language_basic_nil, one_mul] at hlanguage
  unfold instructionState afterInstruction afterLanguage
  rw [if_neg Bool.false_ne_true, mul_one]
  cases I.call with
  | none => exact ⟨htidy, by rw [hlanguage, Option.elim_none, mul_one]⟩
  | some callState =>
      exact ⟨isTidy_add htidy callState.2, by rw [language_add htidy callState.2, hlanguage]; rfl⟩

/-- The state of a block has the paths through the block. -/
theorem basicPSFor_spec (BB : Nat) : (basicPSFor F address BB).isTidy = true ∧
    (basicPSFor F address BB).language = blockLanguage false (markedInstructions F address BB) := by
  have hfold : ∀ (Is : List Instruction) (s : PredicateState Predicate), s.isTidy = true →
      (Is.foldl (fun res I => add res (instructionState I)) s).isTidy = true ∧
        (Is.foldl (fun res I => add res (instructionState I)) s).language =
          s.language * blockLanguage false Is := by
    intro Is
    induction Is with
    | nil => exact fun s hs => ⟨hs, (mul_one _).symm⟩
    | cons I Is ih =>
        intro s hs
        obtain ⟨hItidy, hIlanguage⟩ := instructionState_spec I
        obtain ⟨htidy, hlanguage⟩ := ih _ (isTidy_add hs hItidy)
        refine ⟨htidy, ?_⟩
        rw [List.foldl_cons, hlanguage, language_add hs hItidy, hIlanguage, blockLanguage, mul_assoc]
  obtain ⟨htidy, hlanguage⟩ := hfold (markedInstructions F address BB) _ (isTidy_basic [])
  rw [language_basic_nil, one_mul] at hlanguage
  exact ⟨htidy, hlanguage⟩

theorem succState_spec (BB succ : Nat) {s : PredicateState Predicate} (hs : s.isTidy = true) :
    (succState (F := F) BB succ s).isTidy = true ∧ (succState (F := F) BB succ s).language =
      (basic (edgePart F BB succ)).language * s.language := by
  have hTPM := isTidy_add (isTidy_basic []) (isTidy_TPM (F := F) BB succ)
  have hphis := isTidy_add hTPM (isTidy_basic ((F.block succ).phis.flatMap fun phi =>
    (DefaultPredicateAnalysis.PPM phi BB).toList))
  refine ⟨isTidy_add hphis hs, ?_⟩
  rw [succState, language_add hphis hs, language_add hTPM (isTidy_basic _),
    language_add (isTidy_basic []) (isTidy_TPM BB succ), language_basic_nil, one_mul, edgePart,
    language_basic_append, TPM]

/-- The alternatives behind a block. -/
theorem addChoices_spec {res : PredicateState Predicate} (hres : res.isTidy = true)
    {choices : List (PredicateState Predicate)} (hchoices : ∀ c ∈ choices, c.isTidy = true) :
    (addChoices res choices).isTidy = true ∧ ∀ p, p ∈ (addChoices res choices).language ↔
      (choices = [] ∧ p ∈ res.language) ∨ ∃ c ∈ choices, p ∈ res.language * c.language := by
  cases choices with
  | nil => exact ⟨hres, fun p => by simp [addChoices]⟩
  | cons c cs =>
      have hchoice := isTidy_factoryChoice (List.cons_ne_nil c cs) hchoices
      have hadd : addChoices res (c :: cs) = add res (PredicateStateFactory.choice (c :: cs)) := rfl
      rw [hadd]
      refine ⟨isTidy_add hres hchoice, fun p => ?_⟩
      rw [language_add hres hchoice, language_factoryChoice]
      constructor
      · intro hp
        obtain ⟨q, hq, r, hr, rfl⟩ := Language.mem_mul.mp hp
        obtain ⟨d, hd, hr⟩ := mem_language_choice.mp hr
        exact Or.inr ⟨d, hd, Language.append_mem_mul hq hr⟩
      · rintro (⟨hnil, -⟩ | ⟨d, hd, hp⟩)
        · exact absurd hnil (List.cons_ne_nil c cs)
        obtain ⟨q, hq, r, hr, rfl⟩ := Language.mem_mul.mp hp
        exact Language.append_mem_mul hq (mem_language_choice.mpr ⟨d, hd, hr⟩)

/-- A loop whose steps succeed, with any of the fuels. -/
theorem exists_mapM {α β : Type} {S : Nat → Prop} {f : Nat → α → Option β} {Q : α → β → Prop}
    {l : List α} (h : ∀ a ∈ l, ∃ b, (∀ n, S n → f n a = some b) ∧ Q a b) :
    ∃ bs, (∀ n, S n → l.mapM (f n) = some bs) ∧ List.Forall₂ Q l bs := by
  induction l with
  | nil => exact ⟨[], fun _ _ => rfl, .nil⟩
  | cons a l ih =>
      obtain ⟨b, hb, hQ⟩ := h a List.mem_cons_self
      obtain ⟨bs, hbs, hall⟩ := ih fun x hx => h x (List.mem_cons_of_mem a hx)
      refine ⟨b :: bs, fun n hn => ?_, .cons hQ hall⟩
      rw [List.mapM_cons, hb n hn, hbs n hn]
      rfl

theorem exists_iff_of_forall₂ {α β : Type} {Q : α → β → Prop} {l : List α} {bs : List β}
    (h : List.Forall₂ Q l bs) {A : α → Prop} {B : β → Prop} (hAB : ∀ a b, Q a b → (A a ↔ B b)) :
    (∃ a ∈ l, A a) ↔ ∃ b ∈ bs, B b := by
  induction h with
  | nil => simp
  | cons hQ _ ih =>
      simp only [List.mem_cons, exists_eq_or_imp]
      rw [hAB _ _ hQ, ih]

/-- **The state between a block and one that post-dominates it has the predicate paths from the one
to the other.** -/
theorem stateBetween_spec (R : Ranking F) {b : Nat} {Dom : Option Nat} (hb : b < F.blocks.length)
    (hDom : PostDominates F Dom b) : ∃ s,
      (∀ fuel, R.left b < fuel → stateBetween DT address fuel (some b) Dom = some s) ∧
        s.isTidy = true ∧ s.language = between F (markedInstructions F address) b Dom := by
  induction hn : R.left b using Nat.strong_induction_on generalizing b Dom with
  | _ n ih =>
      by_cases hne : Dom = some b
      · subst hne
        refine ⟨basic [], fun fuel hfuel => ?_, isTidy_basic [],
          language_basic_nil.trans (between_self b).symm⟩
        obtain ⟨fuel, rfl⟩ := Nat.exists_eq_succ_of_ne_zero (Nat.ne_zero_of_lt hfuel)
        rw [stateBetween, if_pos rfl]
      obtain ⟨hself, hdominates, hclosest⟩ := DT.isIdom b hb
      obtain ⟨htidy, hblock⟩ := @basicPSFor_spec F address b
      -- the alternatives lead to the immediate post-dominator
      obtain ⟨choices, hchoices, hall⟩ := exists_mapM (l := F.successors b)
        (S := fun fuel => n ≤ fuel)
        (f := fun fuel succ => (stateBetween DT address fuel (some succ) (DT.getIDom b)).map
          (succState (F := F) b succ))
        (Q := fun succ s => s.isTidy = true ∧ s.language = (basic (edgePart F b succ)).language *
          between F (markedInstructions F address) succ (DT.getIDom b))
        fun c hc => by
          have hlt : R.left c < n := hn ▸ Ranking.left_lt_of_edge hc
          obtain ⟨s, hs, hsTidy, hsLanguage⟩ := ih _ hlt (Function.edge_lt hc).2
            (PostDominates.of_edge hdominates hself hc) rfl
          obtain ⟨hTidy, hLanguage⟩ := succState_spec (F := F) b c hsTidy
          exact ⟨_, fun fuel hfuel => by rw [hs fuel (Nat.lt_of_lt_of_le hlt hfuel)]; rfl, hTidy,
            hLanguage.trans (by rw [hsLanguage])⟩
      have hchoicesTidy : ∀ s ∈ choices, s.isTidy = true := by
        intro s hs
        obtain ⟨_, _, hsTidy, -⟩ := exists_left_of_forall₂ hall hs
        exact hsTidy
      obtain ⟨hresTidy, hmem⟩ := addChoices_spec htidy hchoicesTidy
      -- up to there the state has the paths from the block
      have hres : (addChoices (basicPSFor F address b) choices).language =
          between F (markedInstructions F address) b (DT.getIDom b) := by
        ext p
        rw [hmem p, mem_between_of_ne hself, hblock]
        refine or_congr ?_ ?_
        · have hnil : choices = [] ↔ F.successors b = [] := by
            rw [← List.length_eq_zero_iff, ← hall.length_eq, List.length_eq_zero_iff]
          rw [hnil]
          exact and_congr_right fun hsucc => by
            rw [PostDominates.eq_none hdominates hself hb hsucc]
            simp
        · exact (exists_iff_of_forall₂ hall fun c s hs => by rw [hs.2]).symm
      by_cases heq : DT.getIDom b = Dom
      · refine ⟨_, fun fuel hfuel => ?_, hresTidy, hres.trans (by rw [heq])⟩
        obtain ⟨fuel, rfl⟩ := Nat.exists_eq_succ_of_ne_zero (Nat.ne_zero_of_lt hfuel)
        rw [stateBetween, if_neg hne, hchoices fuel (Nat.le_of_lt_succ hfuel)]
        exact if_neg (not_not.mpr heq)
      · -- behind it comes the way from the immediate post-dominator
        have hclosest := postDominates_idom DT hb hDom hne
        obtain ⟨d, hd⟩ : ∃ d, DT.getIDom b = some d := by
          refine Option.ne_none_iff_exists'.mp fun hnone => heq ?_
          rw [hnone] at hclosest ⊢
          exact (List.mem_singleton.mp (hclosest _ Walk.root)).symm
        rw [hd] at hclosest hdominates hself hres
        obtain ⟨hdlt, hleft⟩ := PostDominates.left_lt R hdominates
          (fun heq => hself (congrArg some heq)) hb
        rw [hn] at hleft
        obtain ⟨rest, hrest, hrestTidy, hrestLanguage⟩ := ih _ hleft hdlt hclosest rfl
        refine ⟨add (addChoices (basicPSFor F address b) choices) rest, fun fuel hfuel => ?_,
          isTidy_add hresTidy hrestTidy, ?_⟩
        · obtain ⟨fuel, rfl⟩ := Nat.exists_eq_succ_of_ne_zero (Nat.ne_zero_of_lt hfuel)
          have hle := Nat.le_of_lt_succ hfuel
          rw [stateBetween, if_neg hne, hchoices fuel hle]
          show (if DT.getIDom b ≠ Dom then _ else _) = _
          rw [if_pos heq, hd, hrest fuel (Nat.lt_of_lt_of_le hleft hle)]
          rfl
        · rw [language_add hresTidy hrestTidy, hres, hrestLanguage]
          exact between_split hb hdominates hclosest hdlt

end OneForAllTD

end Borealis
