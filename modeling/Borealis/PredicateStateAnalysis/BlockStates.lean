import Borealis.PredicateStateAnalysis.Entering

/-!
# The state of a block

What processing one block does.  `Processable` says of a block that processing it succeeds: it can
be reached, and slicing does not fail.  Slicing a chain or a choice on itself fails, and `BBM` does
so when nothing at all was added to the state of the dominator: the block is entered by an
unconditional branch from its only predecessor, it has no phi nodes (`PassesThrough`), and the
state of the predecessor is not a basic one any more (`Bare`).
-/

namespace Borealis

open PredicateState PredicateStateBuilder Lib

variable {F : Function}

/-! ## Where nothing is added -/

/-- The instruction adds nothing to a state. -/
def Instruction.Quiet (post : Bool) (I : Instruction) : Prop :=
  I.PM = [] ∧ (∀ callState, I.call = some callState → callState.1.isEmpty = true) ∧
    (post = true → I.PostPM = [])

/-- The instructions add nothing to a state. -/
def Quiet (post : Bool) (Is : List Instruction) : Prop := ∀ I ∈ Is, I.Quiet post

/-- The only way into `b` is an unconditional branch from `a`, and nothing is chosen on it. -/
structure PassesThrough (F : Function) (a b : Nat) : Prop where
  terminator : (F.block a).terminator = .br b
  phis : ∀ phi ∈ (F.block b).phis, phi.hasIncoming a = false
  only : ∀ c, F.Edge c b → c = a

/-- Nothing was added to the initial state on the way to the end of the block, and the initial
state is basic. -/
inductive Bare (F : Function) (post : Bool) : Nat → Prop
  | entry : F.initialState.isBasic = true → Quiet post (F.block 0).instructions → Bare F post 0
  | step {a b : Nat} : Bare F post a → PassesThrough F a b →
      Quiet post (F.block b).instructions → Bare F post b

/-- A block that `OneForAll` can process. -/
structure Processable (F : Function) (post : Bool) (b : Nat) : Prop where
  hasWalk : HasWalk F.Edge 0 b
  bare : ∀ a, PassesThrough F a b → Bare F post a

theorem PassesThrough.edge {a b : Nat} (h : PassesThrough F a b) : F.Edge a b := by
  rw [Function.Edge, Function.successors, h.terminator]
  exact List.mem_cons_self

/-! ## Passing through and dominance -/

/-- A block with two ways in does not hang below an unconditional branch. -/
theorem terminator_ne_br {d a b : Nat} (hidom : IsIdom F.Edge 0 d b) (hedge : F.Edge a b)
    (ha : HasWalk F.Edge 0 a) (hne : a ≠ d) (succ : Nat) : (F.block d).terminator ≠ .br succ := by
  obtain ⟨rank, hrank⟩ := F.acyclic
  intro hbr
  have honly : ∀ x, F.Edge d x → x = succ := by
    intro x hx
    rw [Function.Edge, Function.successors, hbr] at hx
    exact List.mem_singleton.mp hx
  have hdsucc : F.Edge d succ := by
    rw [Function.Edge, Function.successors, hbr]
    exact List.mem_cons_self
  have hda := hidom.dominates.of_edge hidom.ne hedge
  have hsucca : Dominates F.Edge 0 succ a := hda.of_onlySuccessor honly hne.symm
  rcases eq_or_ne succ b with rfl | hsuccb
  · -- then `b` would dominate its own predecessor
    have hlt := hsucca.rank_lt hrank ha fun heq => by
      subst heq
      exact absurd (hrank _ _ hedge) (Nat.lt_irrefl _)
    exact absurd (hrank a succ hedge) (Nat.not_lt_of_lt hlt)
  · -- then the successor would be a dominator closer than `d`
    have hsuccDom : Dominates F.Edge 0 succ b :=
      hidom.dominates.of_onlySuccessor honly hidom.ne
    have hcloser := hidom.closest succ hsuccb hsuccDom
    have hdsuccLt := hrank d succ hdsucc
    have hne' : succ ≠ d := fun heq => by
      rw [heq] at hdsuccLt
      exact Nat.lt_irrefl _ hdsuccLt
    have hlt := hcloser.rank_lt hrank (hda.hasWalk ha) hne'
    exact absurd hdsuccLt (Nat.not_lt_of_lt hlt)

/-- The only way into `b` from its dominator `d` is an unconditional branch. -/
theorem passesThrough_of_idom {d b : Nat} (hidom : IsIdom F.Edge 0 d b)
    (hterminator : (F.block d).terminator = .br b)
    (hphis : ∀ phi ∈ (F.block b).phis, phi.hasIncoming d = false)
    (hreach : ∀ c, F.Edge c b → HasWalk F.Edge 0 c) : PassesThrough F d b := by
  refine ⟨hterminator, hphis, fun c hc => ?_⟩
  by_contra hne
  exact terminator_ne_br hidom hc (hreach c hc) hne b hterminator

/-- A predecessor that is passed is the immediate dominator. -/
theorem PassesThrough.eq_idom {a d b : Nat} (h : PassesThrough F a b)
    (hidom : IsIdom F.Edge 0 d b) (hb : HasWalk F.Edge 0 b) (hentry : b ≠ 0) : d = a := by
  obtain ⟨rank, hrank⟩ := F.acyclic
  have hab : a ≠ b := by
    rintro rfl
    exact absurd (hrank _ _ h.edge) (Nat.lt_irrefl _)
  have hdom : Dominates F.Edge 0 a b := by
    intro l hl
    cases hl with
    | root => exact absurd rfl hentry
    | step hwalk hedge =>
        rw [← h.only _ hedge]
        exact List.mem_cons_of_mem _ hwalk.self_mem
  have hda := hidom.dominates.of_edge hidom.ne h.edge
  exact hda.antisymm hrank (hidom.closest a hab hdom) (hdom.hasWalk hb)

/-! ## The instructions of a block -/

namespace OneForAll

variable (P : Pass F)

theorem grows_afterInstruction (I : Instruction) {s : PredicateState Predicate}
    (hs : s.isTidy = true) (hempty : s.isEmpty = false) :
    Grows s (afterInstruction I s) (I.call.elim 1 fun callState => callState.1.language)
      (∀ callState, I.call = some callState → callState.1.isEmpty = true) := by
  unfold afterInstruction
  cases I.call with
  | none => exact (Grows.refl s).congr rfl (by simp)
  | some callState => exact (Grows.add hs hempty callState.2).congr rfl (by simp)

/-- What one instruction does to the state it is entered in. -/
theorem grows_nextState (I : Instruction) {s : PredicateState Predicate}
    (hs : s.isTidy = true) (hempty : s.isEmpty = false) :
    Grows s (nextState P I (add s (basic I.PM))) (afterLanguage P.assumeDefectsTriggerOnce I)
      (I.Quiet P.assumeDefectsTriggerOnce) := by
  have hPM := Grows.add hs hempty (isTidy_basic I.PM)
  have hcall := grows_afterInstruction I (hPM.built.isTidy hs) (hPM.built.isEmpty_eq_false hempty)
  have hafter := hPM.trans hempty hcall
  have hPMEmpty : (basic I.PM).isEmpty = true ↔ I.PM = [] := List.isEmpty_iff
  unfold nextState afterLanguage Instruction.Quiet
  cases P.assumeDefectsTriggerOnce with
  | false =>
      refine hafter.congr (mul_one _).symm ?_
      rw [hPMEmpty]
      simp
  | true =>
      have hPost := Grows.add (hafter.built.isTidy hs) (hafter.built.isEmpty_eq_false hempty)
        (isTidy_basic I.PostPM)
      refine (hafter.trans hempty hPost).congr rfl ?_
      rw [hPMEmpty, and_assoc]
      simp [isEmpty]

/-- **The loop over the instructions.** -/
theorem grows_instructionLoop (Is : List Instruction) {s : PredicateState Predicate}
    (hs : s.isTidy = true) (hempty : s.isEmpty = false) :
    Grows s (instructionLoop P s Is).2 (blockLanguage P.assumeDefectsTriggerOnce Is)
      (Quiet P.assumeDefectsTriggerOnce Is) := by
  induction Is generalizing s with
  | nil => exact (Grows.refl s).congr rfl (by simp [Quiet])
  | cons I rest ih =>
      have hnext := grows_nextState P I hs hempty
      have hrest := ih (hnext.built.isTidy hs) (hnext.built.isEmpty_eq_false hempty)
      exact (hnext.trans hempty hrest).congr rfl List.forall_mem_cons.symm

theorem length_instructionLoop (Is : List Instruction) (s : PredicateState Predicate) :
    (instructionLoop P s Is).1.length = Is.length := by
  induction Is generalizing s with
  | nil => rfl
  | cons I rest ih => exact congrArg (· + 1) (ih _)

/-- The state at an instruction has the paths up to it. -/
theorem instructionLoop_getElem {Is : List Instruction} {s t : PredicateState Predicate}
    (hs : s.isTidy = true) (hempty : s.isEmpty = false) {k : Nat}
    (ht : (instructionLoop P s Is).1[k]? = some t) :
    t.isTidy = true ∧
      t.language = s.language * prefixLanguage P.assumeDefectsTriggerOnce Is k := by
  induction Is generalizing s k with
  | nil => exact absurd ht (by simp [instructionLoop])
  | cons I rest ih =>
      cases k with
      | zero =>
          obtain rfl : add s (basic I.PM) = t := Option.some.inj ht
          have hPM := Grows.add hs hempty (isTidy_basic I.PM)
          exact ⟨hPM.built.isTidy hs, hPM.language⟩
      | succ k =>
          have hnext := grows_nextState P I hs hempty
          obtain ⟨htTidy, htLanguage⟩ :=
            ih (hnext.built.isTidy hs) (hnext.built.isEmpty_eq_false hempty) ht
          refine ⟨htTidy, ?_⟩
          rw [htLanguage, hnext.language, prefixLanguage, mul_assoc]

end OneForAll

/-! ## Finishing the states -/

theorem finalizeState_spec (P : Pass F) {s : PredicateState Predicate} (hs : s.isTidy = true) :
    ∃ t, finalizeState P s = some t ∧ t.language = Language.map P.RR s.language := by
  unfold finalizeState
  cases P.optimizeStates with
  | false => exact ⟨s.map P.RR, rfl, language_map P.RR s⟩
  | true =>
      obtain ⟨t, ht, hmerges⟩ := StateOptimizer.transform_spec hs
      refine ⟨t.map P.RR, by rw [if_pos rfl, ht]; rfl, ?_⟩
      rw [language_map, hmerges.language_eq]

end Borealis
