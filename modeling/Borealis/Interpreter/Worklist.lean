import Mathlib.Logic.Function.Basic
import Mathlib.Order.Lattice.Nat
import Mathlib.Order.Nat
import Mathlib.Order.BoundedOrder.Basic

/-!
# The worklist of a function

`Interpreter::interpretFunction` visits the blocks of a deque until the deque is empty.  A visit
joins the input state of the front block into its output state, lets the instructions change the
output state, joins the state of the branch into the input states of the selected successors, and
queues the successors that are neither at a fixpoint nor in the deque.

What the instructions of a block do depends on more than the state of the block: the globals, the
other functions, the stores seen so far.  All of this is the surrounding state `σ`, which a visit
may change, and which other functions may change between two calls.

## Strategy

Three things can go wrong: a successor in the deque is not queued again, a block branching to
itself is at the front while its own input changes, and `atFixpoint` answers from a flag.  Each is
one part of `Sound`:

* a visited block outside the deque has its input below its output;
* the flag is only trusted while it is right;
* what a branch passes on is below the input of its target, which is visited or in the deque.

A block that branches to itself passes on no more than its own output, so it is sound when it
leaves the front of the deque.
-/

namespace Borealis.Worklist

/-- The two states of a `BasicBlock` and its flags. -/
structure BlockState (D : Type) where
  inputState : D
  outputState : D
  inputChanged : Bool
  atFixpointFlag : Bool
  visited : Bool

/-- The last instruction of a block. -/
inductive Terminator (B : Type) where
  | unconditional (successor : B)
  | conditional (trueSuccessor falseSuccessor : B)
  | exit

/-- What is known of a condition: it is one Boolean, or it is top, bottom or no constant. -/
inductive Condition where
  | constant (value : Bool)
  | unknown

variable {σ B D : Type} [DecidableEq B] [DecidableEq D] [SemilatticeSup D] [OrderBot D]

omit [DecidableEq D] in
/-- The abstract effect of the blocks of a function.  A visit leaves the output state that the
branch sees, and the halves of a split describe no more than that state. -/
structure Transfer (σ B D : Type) [SemilatticeSup D] where
  terminator : B → Terminator B
  visit : σ → B → D → σ × D
  inflationary : ∀ s b d, d ≤ (visit s b d).2
  condition : σ → B → D → Condition
  split : σ → B → D → D × D
  split_le : ∀ s b d, (split s b d).1 ≤ d ∧ (split s b d).2 ≤ d

namespace BlockState

/-- The constructor of `BasicBlock`. -/
def initial : BlockState D := ⟨⊥, ⊥, false, false, false⟩

/-- `atFixpoint`: the answer, and the block with its flags updated. -/
def atFixpoint (b : BlockState D) : Bool × BlockState D :=
  if b.outputState = ⊥ ∧ b.visited = false then (false, b)
  else if b.inputChanged = false then (b.atFixpointFlag, b)
  else
    let flag := decide (b.outputState = b.inputState)
    (flag, { b with atFixpointFlag := flag, inputChanged := false })

/-- `mergeToInput`. -/
def mergeToInput (b : BlockState D) (input : D) : BlockState D :=
  { b with inputState := b.inputState ⊔ input, inputChanged := true }

/-- `mergeOutputWithInput`. -/
def mergeOutputWithInput (b : BlockState D) : BlockState D :=
  { b with outputState := b.outputState ⊔ b.inputState }

/-- `setVisited`. -/
def setVisited (b : BlockState D) : BlockState D := { b with visited := true }

end BlockState

/-- The blocks of a function and its deque, with a record of every state that a branch has passed
to a successor. -/
structure Context (B D : Type) where
  blocks : B → BlockState D
  deque : List B
  passed : List (B × B × D)

namespace Context

/-- A function that has not been interpreted. -/
def initial : Context B D := ⟨fun _ => BlockState.initial, [], []⟩

def setBlock (c : Context B D) (b : B) (state : BlockState D) : Context B D :=
  { c with blocks := Function.update c.blocks b state }

/-- One step of `addSuccessors`. -/
def addSuccessor (c : Context B D) (it : B) : Context B D :=
  let c' := c.setBlock it (c.blocks it).atFixpoint.2
  if (c.blocks it).atFixpoint.1 = false ∧ it ∉ c.deque then
    { c' with deque := c'.deque ++ [it] }
  else c'

/-- `addSuccessors`. -/
def addSuccessors (c : Context B D) (successors : List B) : Context B D :=
  successors.foldl addSuccessor c

/-- `successor->mergeToInput(state)`, recorded. -/
def pass (b : B) (c : Context B D) (target : B × D) : Context B D :=
  let c' := c.setBlock target.1 ((c.blocks target.1).mergeToInput target.2)
  { c' with passed := (b, target) :: c'.passed }

/-- The front block has been visited and leaves the deque. -/
def popFront (c : Context B D) (b : B) : Context B D :=
  let c' := c.setBlock b (c.blocks b).setVisited
  { c' with deque := c'.deque.tail }

end Context

omit [DecidableEq B] [DecidableEq D] [OrderBot D] in
/-- `visitBranchInst`: the selected successors with the states passed to them. -/
def visitBranchInst (t : Transfer σ B D) (s : σ) (b : B) (state : D) : List (B × D) :=
  match t.terminator b with
  | .exit => []
  | .unconditional successor => [(successor, state)]
  | .conditional trueSuccessor falseSuccessor =>
      let split := t.split s b state
      match t.condition s b state with
      | .unknown => [(trueSuccessor, split.1), (falseSuccessor, split.2)]
      | .constant true => [(trueSuccessor, split.1)]
      | .constant false => [(falseSuccessor, split.2)]

/-- The output state of the front block once its instructions are visited. -/
def visitInstructions (t : Transfer σ B D) (s : σ) (c : Context B D) (b : B) :
    σ × Context B D :=
  let merged := (c.blocks b).mergeOutputWithInput
  let result := t.visit s b merged.outputState
  (result.1, c.setBlock b { merged with outputState := result.2 })

/-- One pass of the loop of `interpretFunction`, for the front block `b`. -/
def visitFront (t : Transfer σ B D) (s : σ) (c : Context B D) (b : B) : σ × Context B D :=
  let (s', c') := visitInstructions t s c b
  let targets := visitBranchInst t s' b (c'.blocks b).outputState
  let c'' := (targets.foldl (Context.pass b) c').addSuccessors (targets.map Prod.fst)
  (s', c''.popFront b)

/-- The loop of `interpretFunction`. -/
def visitDeque (t : Transfer σ B D) : Nat → σ → Context B D → Option (σ × Context B D)
  | 0, s, c => if c.deque = [] then some (s, c) else none
  | fuel + 1, s, c =>
      match c.deque with
      | [] => some (s, c)
      | b :: _ => visitDeque t fuel (visitFront t s c b).1 (visitFront t s c b).2

/-- The arguments of a call: a function without arguments takes none, for the others
`updateArguments` joins a state into the input of the entry node and answers whether the arguments
have changed. -/
inductive Arguments (D : Type) where
  | empty
  | updated (inputState : D) (changed : Bool)

/-- `updArgs`. -/
def updArgs (c : Context B D) (entry : B) : Arguments D → Bool
  | .empty => !(c.blocks entry).visited
  | .updated _ changed => changed

/-- `updateArguments`, where it is called. -/
def updateArguments (c : Context B D) (entry : B) : Arguments D → Context B D
  | .empty => c
  | .updated inputState _ => c.setBlock entry ((c.blocks entry).mergeToInput inputState)

/-- `interpretFunction`. -/
def interpretFunction (t : Transfer σ B D) (entry : B) (fuel : Nat) (args : Arguments D) (s : σ)
    (c : Context B D) : Option (σ × Context B D) :=
  if updArgs c entry args = false then some (s, updateArguments c entry args)
  else visitDeque t fuel s { updateArguments c entry args with deque := [entry] }

/-- What earlier calls of a function leave.  Between two calls the surrounding state may change in
any way. -/
inductive Interpreted (t : Transfer σ B D) (entry : B) : Context B D → Prop
  | initial : Interpreted t entry Context.initial
  | call {c c' : Context B D} {fuel : Nat} {args : Arguments D} {s s' : σ} :
      Interpreted t entry c → interpretFunction t entry fuel args s c = some (s', c') →
        Interpreted t entry c'

/-- A post-fixpoint: no visited block has an input its output does not include, and every state
passed to a successor is included in the output of the successor, which has been visited. -/
def PostFixpoint (c : Context B D) : Prop :=
  (∀ b, (c.blocks b).visited = true → (c.blocks b).inputState ≤ (c.blocks b).outputState) ∧
    ∀ b successor d, (b, successor, d) ∈ c.passed →
      (c.blocks successor).visited = true ∧ d ≤ (c.blocks successor).outputState

/-! ## The invariant -/

/-- What a block owes to the states it was given, unless it is still to be done. -/
structure Sound (todo : B → Prop) (c : Context B D) : Prop where
  included : ∀ b, (c.blocks b).visited = true →
    (c.blocks b).inputState ≤ (c.blocks b).outputState ∨ todo b
  passed : ∀ b successor d, (b, successor, d) ∈ c.passed →
    d ≤ (c.blocks successor).inputState ∧ ((c.blocks successor).visited = true ∨ todo successor)

/-- `atFixpoint` may be trusted for the blocks outside the deque. -/
structure Trusted (c : Context B D) : Prop where
  fresh : ∀ b, b ∉ c.deque → (c.blocks b).visited = false → (c.blocks b).outputState = ⊥
  flag : ∀ b, (c.blocks b).inputChanged = false → (c.blocks b).atFixpointFlag = true →
    (c.blocks b).inputState ≤ (c.blocks b).outputState

omit [DecidableEq B] [DecidableEq D] [OrderBot D] in
theorem Sound.mono {todo todo' : B → Prop} {c : Context B D} (h : Sound todo c)
    (htodo : ∀ b, todo b → todo' b) : Sound todo' c :=
  ⟨fun b hb => (h.included b hb).imp_right (htodo b),
    fun b successor d hd =>
      ⟨(h.passed b successor d hd).1, (h.passed b successor d hd).2.imp_right (htodo successor)⟩⟩

omit [DecidableEq B] [DecidableEq D] [OrderBot D] in
theorem Sound.postFixpoint {c : Context B D} (h : Sound (fun b => b ∈ c.deque) c)
    (hempty : c.deque = []) : PostFixpoint c := by
  have hnone : ∀ b, b ∉ c.deque := by simp [hempty]
  have hincluded : ∀ b, (c.blocks b).visited = true →
      (c.blocks b).inputState ≤ (c.blocks b).outputState := fun b hb =>
    (h.included b hb).resolve_right (hnone b)
  refine ⟨hincluded, fun b successor d hd => ?_⟩
  obtain ⟨hle, hvisited⟩ := h.passed b successor d hd
  have hvisited := hvisited.resolve_right (hnone successor)
  exact ⟨hvisited, hle.trans (hincluded successor hvisited)⟩

/-! ## Queueing the successors -/

/-- The two contexts differ in flags and deque only. -/
structure SameStates (c c' : Context B D) : Prop where
  passed : c'.passed = c.passed
  inputState : ∀ b, (c'.blocks b).inputState = (c.blocks b).inputState
  outputState : ∀ b, (c'.blocks b).outputState = (c.blocks b).outputState
  visited : ∀ b, (c'.blocks b).visited = (c.blocks b).visited

omit [DecidableEq B] [DecidableEq D] [SemilatticeSup D] [OrderBot D] in
theorem SameStates.refl (c : Context B D) : SameStates c c :=
  ⟨rfl, fun _ => rfl, fun _ => rfl, fun _ => rfl⟩

omit [DecidableEq B] [DecidableEq D] [SemilatticeSup D] [OrderBot D] in
theorem SameStates.trans {c c' c'' : Context B D} (h : SameStates c c') (h' : SameStates c' c'') :
    SameStates c c'' :=
  ⟨h'.passed.trans h.passed, fun b => (h'.inputState b).trans (h.inputState b),
    fun b => (h'.outputState b).trans (h.outputState b),
    fun b => (h'.visited b).trans (h.visited b)⟩

omit [DecidableEq B] [DecidableEq D] [OrderBot D] in
theorem SameStates.sound {todo : B → Prop} {c c' : Context B D} (h : SameStates c c')
    (hsound : Sound todo c) : Sound todo c' := by
  constructor
  · intro b hb
    rw [h.visited] at hb
    rw [h.inputState, h.outputState]
    exact hsound.included b hb
  · intro b successor d hd
    rw [h.passed] at hd
    rw [h.inputState, h.visited]
    exact hsound.passed b successor d hd

omit [DecidableEq B] in
theorem atFixpoint_states (b : BlockState D) :
    b.atFixpoint.2.inputState = b.inputState ∧ b.atFixpoint.2.outputState = b.outputState ∧
      b.atFixpoint.2.visited = b.visited := by
  unfold BlockState.atFixpoint
  split
  · exact ⟨rfl, rfl, rfl⟩
  · split <;> exact ⟨rfl, rfl, rfl⟩

omit [DecidableEq B] in
/-- The flags of a block are right after `atFixpoint` when they were before. -/
theorem atFixpoint_flag {b : BlockState D}
    (hflag : b.inputChanged = false → b.atFixpointFlag = true → b.inputState ≤ b.outputState) :
    b.atFixpoint.2.inputChanged = false → b.atFixpoint.2.atFixpointFlag = true →
      b.inputState ≤ b.outputState := by
  unfold BlockState.atFixpoint
  split
  · exact hflag
  · split
    · exact hflag
    · intro _ hequals
      exact (of_decide_eq_true hequals).ge

omit [DecidableEq B] in
/-- A block at a fixpoint includes its input, and it has been visited or has an output. -/
theorem le_of_atFixpoint {b : BlockState D}
    (hflag : b.inputChanged = false → b.atFixpointFlag = true → b.inputState ≤ b.outputState)
    (hfixpoint : b.atFixpoint.1 = true) :
    b.inputState ≤ b.outputState ∧ ¬ (b.outputState = ⊥ ∧ b.visited = false) := by
  unfold BlockState.atFixpoint at hfixpoint
  split at hfixpoint
  · exact absurd hfixpoint (by simp)
  · next hempty =>
      refine ⟨?_, hempty⟩
      split at hfixpoint
      · next hchanged => exact hflag hchanged hfixpoint
      · exact (of_decide_eq_true hfixpoint).ge

theorem addSuccessor_blocks (c : Context B D) (it b : B) :
    (c.addSuccessor it).blocks b = if b = it then (c.blocks it).atFixpoint.2 else c.blocks b := by
  have hset : (c.setBlock it (c.blocks it).atFixpoint.2).blocks b =
      if b = it then (c.blocks it).atFixpoint.2 else c.blocks b := by
    simp [Context.setBlock, Function.update_apply]
  unfold Context.addSuccessor
  simp only
  split <;> exact hset

theorem addSuccessor_sameStates (c : Context B D) (it : B) :
    SameStates c (c.addSuccessor it) := by
  obtain ⟨hinput, houtput, hvisited⟩ := atFixpoint_states (c.blocks it)
  refine ⟨?_, fun b => ?_, fun b => ?_, fun b => ?_⟩
  · unfold Context.addSuccessor
    simp only
    split <;> rfl
  all_goals
    rw [addSuccessor_blocks]
    split
    · next heq =>
        subst heq
        assumption
    · rfl

theorem addSuccessor_deque (c : Context B D) (it : B) :
    ∃ added, (c.addSuccessor it).deque = c.deque ++ added := by
  unfold Context.addSuccessor
  simp only
  split
  · exact ⟨[it], rfl⟩
  · exact ⟨[], (List.append_nil _).symm⟩

theorem mem_addSuccessor_deque {c : Context B D} {it b : B} (hb : b ∈ c.deque) :
    b ∈ (c.addSuccessor it).deque := by
  obtain ⟨added, hadded⟩ := addSuccessor_deque c it
  rw [hadded]
  exact List.mem_append_left _ hb

/-- After a step of `addSuccessors` the successor is in the deque or needs no visit. -/
theorem addSuccessor_done {c : Context B D} (h : Trusted c) (it : B) :
    it ∈ (c.addSuccessor it).deque ∨
      (c.blocks it).inputState ≤ (c.blocks it).outputState ∧ (c.blocks it).visited = true := by
  by_cases hdeque : it ∈ c.deque
  · exact .inl (mem_addSuccessor_deque hdeque)
  · cases hfixpoint : (c.blocks it).atFixpoint.1 with
    | false =>
        left
        simp [Context.addSuccessor, hfixpoint, hdeque]
    | true =>
        obtain ⟨hle, hempty⟩ := le_of_atFixpoint (h.flag it) hfixpoint
        refine .inr ⟨hle, ?_⟩
        by_contra hvisited
        rw [Bool.not_eq_true] at hvisited
        exact hempty ⟨h.fresh it hdeque hvisited, hvisited⟩

theorem addSuccessor_trusted {c : Context B D} (h : Trusted c) (it : B) :
    Trusted (c.addSuccessor it) := by
  have hsame := addSuccessor_sameStates c it
  constructor
  · intro b hb hvisited
    rw [hsame.visited] at hvisited
    rw [hsame.outputState]
    exact h.fresh b (fun hmem => hb (mem_addSuccessor_deque hmem)) hvisited
  · intro b
    rw [hsame.inputState, hsame.outputState, addSuccessor_blocks]
    split
    · next heq =>
        subst heq
        exact atFixpoint_flag (h.flag b)
    · exact h.flag b

/-- `addSuccessors` changes flags and deque only. -/
theorem addSuccessors_sameStates (c : Context B D) (successors : List B) :
    SameStates c (c.addSuccessors successors) := by
  induction successors generalizing c with
  | nil => exact SameStates.refl c
  | cons it successors ih => exact (addSuccessor_sameStates c it).trans (ih _)

/-- After `addSuccessors` every successor is in the deque or needs no visit. -/
theorem addSuccessors_spec {c : Context B D} (h : Trusted c) (successors : List B) :
    Trusted (c.addSuccessors successors) ∧
      (∃ added, (c.addSuccessors successors).deque = c.deque ++ added) ∧
      ∀ b ∈ successors, b ∈ (c.addSuccessors successors).deque ∨
        (c.blocks b).inputState ≤ (c.blocks b).outputState ∧ (c.blocks b).visited = true := by
  induction successors generalizing c with
  | nil => exact ⟨h, ⟨[], (List.append_nil _).symm⟩, by simp⟩
  | cons it successors ih =>
      have hsame := addSuccessor_sameStates c it
      obtain ⟨htrusted, ⟨added', hadded'⟩, hdone⟩ := ih (addSuccessor_trusted h it)
      obtain ⟨added, hadded⟩ := addSuccessor_deque c it
      refine ⟨htrusted, ⟨added ++ added', ?_⟩, fun b hb => ?_⟩
      · calc ((c.addSuccessor it).addSuccessors successors).deque
            = (c.addSuccessor it).deque ++ added' := hadded'
          _ = c.deque ++ (added ++ added') := by rw [hadded, List.append_assoc]
      rcases List.mem_cons.mp hb with rfl | hb
      · refine (addSuccessor_done h b).imp_left fun hmem => ?_
        rw [Context.addSuccessors, List.foldl_cons]
        exact hadded' ▸ List.mem_append_left _ hmem
      · have hdone := hdone b hb
        rwa [hsame.inputState, hsame.outputState, hsame.visited] at hdone

/-! ## Passing states on -/

omit [DecidableEq D] [OrderBot D] in
theorem pass_blocks (c : Context B D) (b : B) (target : B × D) (b' : B) :
    (c.pass b target).blocks b' =
      if b' = target.1 then (c.blocks target.1).mergeToInput target.2 else c.blocks b' := by
  simp [Context.pass, Context.setBlock, Function.update_apply]

omit [DecidableEq D] [OrderBot D] in
theorem pass_outputState (c : Context B D) (b : B) (target : B × D) (b' : B) :
    ((c.pass b target).blocks b').outputState = (c.blocks b').outputState ∧
      ((c.pass b target).blocks b').visited = (c.blocks b').visited := by
  rw [pass_blocks]
  split
  · next heq => subst heq; exact ⟨rfl, rfl⟩
  · exact ⟨rfl, rfl⟩

omit [DecidableEq D] [OrderBot D] in
theorem le_pass_inputState (c : Context B D) (b : B) (target : B × D) (b' : B) :
    (c.blocks b').inputState ≤ ((c.pass b target).blocks b').inputState := by
  rw [pass_blocks]
  split
  · next heq => subst heq; exact le_sup_left
  · exact le_rfl

omit [DecidableEq D] [OrderBot D] in
/-- Passing a state to a block that is to be done keeps what the blocks owe. -/
theorem pass_sound {todo : B → Prop} {c : Context B D} (h : Sound todo c) (b : B)
    (target : B × D) (htodo : todo target.1) : Sound todo (c.pass b target) := by
  constructor
  · intro b' hvisited
    rw [(pass_outputState c b target b').2] at hvisited
    rw [(pass_outputState c b target b').1, pass_blocks]
    split
    · next heq => exact .inr (heq ▸ htodo)
    · exact h.included b' hvisited
  · intro b' successor d hd
    rw [(pass_outputState c b target successor).2]
    rcases List.mem_cons.mp hd with heq | hd
    · obtain ⟨rfl, rfl⟩ := Prod.mk.inj heq
      refine ⟨?_, .inr htodo⟩
      rw [pass_blocks, if_pos rfl]
      exact le_sup_right
    · obtain ⟨hle, hdone⟩ := h.passed b' successor d hd
      exact ⟨hle.trans (le_pass_inputState c b target successor), hdone⟩

omit [DecidableEq D] in
theorem pass_trusted {c : Context B D} (h : Trusted c) (b : B) (target : B × D) :
    Trusted (c.pass b target) := by
  constructor
  · intro b' hb' hvisited
    rw [(pass_outputState c b target b').2] at hvisited
    rw [(pass_outputState c b target b').1]
    exact h.fresh b' hb' hvisited
  · intro b' hchanged hflag
    rw [pass_blocks] at hchanged hflag ⊢
    split at hchanged
    · exact absurd hchanged (by simp [BlockState.mergeToInput])
    · next hne =>
        rw [if_neg hne] at hflag ⊢
        exact h.flag b' hchanged hflag

omit [DecidableEq D] [OrderBot D] in
/-- A block whose input is below its output stays so when it passes on parts of that output, to
itself among others. -/
theorem pass_included {c : Context B D} {b : B} {d : D} (hin : (c.blocks b).inputState ≤ d)
    {target : B × D} (hle : target.2 ≤ d) : ((c.pass b target).blocks b).inputState ≤ d := by
  rw [pass_blocks]
  split
  · next heq =>
      rw [← heq]
      exact sup_le hin hle
  · exact hin

omit [DecidableEq D] [OrderBot D] in
theorem foldl_pass_outputState (c : Context B D) (b : B) (targets : List (B × D)) (b' : B) :
    ((targets.foldl (Context.pass b) c).blocks b').outputState = (c.blocks b').outputState := by
  induction targets generalizing c with
  | nil => rfl
  | cons target targets ih => exact (ih _).trans (pass_outputState c b target b').1

omit [DecidableEq D] in
/-- What passing on the states of a branch keeps. -/
theorem foldl_pass_spec (todo : B → Prop) {c : Context B D} {b : B} {d : D}
    {targets : List (B × D)} (htodo : ∀ target ∈ targets, todo target.1)
    (hle : ∀ target ∈ targets, target.2 ≤ d) (hin : (c.blocks b).inputState ≤ d)
    (hsound : Sound todo c) (htrusted : Trusted c) :
    Sound todo (targets.foldl (Context.pass b) c) ∧
      Trusted (targets.foldl (Context.pass b) c) ∧
      (targets.foldl (Context.pass b) c).deque = c.deque ∧
      ((targets.foldl (Context.pass b) c).blocks b).inputState ≤ d := by
  induction targets generalizing c with
  | nil => exact ⟨hsound, htrusted, rfl, hin⟩
  | cons target targets ih =>
      rw [List.forall_mem_cons] at htodo hle
      exact ih htodo.2 hle.2 (pass_included hin hle.1) (pass_sound hsound b target htodo.1)
        (pass_trusted htrusted b target)

omit [DecidableEq B] [DecidableEq D] [OrderBot D] in
theorem visitBranchInst_le (t : Transfer σ B D) (s : σ) (b : B) (state : D) :
    ∀ target ∈ visitBranchInst t s b state, target.2 ≤ state := by
  obtain ⟨hleft, hright⟩ := t.split_le s b state
  unfold visitBranchInst
  split
  · simp
  · simp
  · simp only
    split <;> simp [hleft, hright]

/-! ## One visit -/

omit [DecidableEq D] [OrderBot D] in
theorem visitInstructions_blocks (t : Transfer σ B D) (s : σ) (c : Context B D) (b b' : B) :
    (visitInstructions t s c b).2.blocks b' = if b' = b then
      { c.blocks b with
        outputState := (t.visit s b ((c.blocks b).outputState ⊔ (c.blocks b).inputState)).2 }
    else c.blocks b' := by
  simp [visitInstructions, Context.setBlock, Function.update_apply,
    BlockState.mergeOutputWithInput]

omit [DecidableEq D] in
/-- The instructions keep what the blocks owe, and the output of the front block includes its
input. -/
theorem visitInstructions_spec (t : Transfer σ B D) (s : σ) {c : Context B D} {b : B}
    (hsound : Sound (fun b => b ∈ c.deque) c) (htrusted : Trusted c) (hb : b ∈ c.deque) :
    Sound (fun b => b ∈ c.deque) (visitInstructions t s c b).2 ∧
      Trusted (visitInstructions t s c b).2 ∧
      ((visitInstructions t s c b).2.blocks b).inputState ≤
        ((visitInstructions t s c b).2.blocks b).outputState := by
  have hle : (c.blocks b).inputState ≤
      (t.visit s b ((c.blocks b).outputState ⊔ (c.blocks b).inputState)).2 :=
    le_sup_right.trans (t.inflationary s b _)
  refine ⟨⟨fun b' hvisited => ?_, fun b' successor d hd => ?_⟩,
    ⟨fun b' hb' hvisited => ?_, fun b' hchanged hflag => ?_⟩, ?_⟩
  · rw [visitInstructions_blocks] at hvisited ⊢
    split
    · exact .inl hle
    · next hne =>
        rw [if_neg hne] at hvisited
        exact hsound.included b' hvisited
  · have h := hsound.passed b' successor d hd
    rw [visitInstructions_blocks]
    split
    · next heq => subst heq; exact h
    · exact h
  · rw [visitInstructions_blocks] at hvisited ⊢
    have hne : b' ≠ b := fun heq => hb' (heq ▸ hb)
    rw [if_neg hne] at hvisited ⊢
    exact htrusted.fresh b' hb' hvisited
  · rw [visitInstructions_blocks] at hchanged hflag ⊢
    split
    · exact hle
    · next hne =>
        rw [if_neg hne] at hchanged hflag
        exact htrusted.flag b' hchanged hflag
  · rw [visitInstructions_blocks, if_pos rfl]
    exact hle

omit [DecidableEq D] in
/-- The front block has its input below its output, so it needs nothing when it leaves. -/
theorem popFront_spec {c : Context B D} {b : B} {rest : List B}
    (hdeque : c.deque = b :: rest) (hle : (c.blocks b).inputState ≤ (c.blocks b).outputState)
    (hsound : Sound (fun b => b ∈ c.deque) c) (htrusted : Trusted c) :
    Sound (fun b' => b' ∈ (c.popFront b).deque) (c.popFront b) ∧ Trusted (c.popFront b) := by
  have hblocks : ∀ b', (c.popFront b).blocks b' =
      if b' = b then (c.blocks b).setVisited else c.blocks b' := by
    simp [Context.popFront, Context.setBlock, Function.update_apply]
  have hrest : (c.popFront b).deque = rest := by
    simp [Context.popFront, Context.setBlock, hdeque]
  have hstay : ∀ b', b' ≠ b → b' ∈ c.deque → b' ∈ rest := fun b' hne hmem =>
    (List.mem_cons.mp (hdeque ▸ hmem)).resolve_left hne
  rw [hrest]
  refine ⟨⟨fun b' hvisited => ?_, fun b' successor d hd => ?_⟩,
    ⟨fun b' hb' hvisited => ?_, fun b' hchanged hflag => ?_⟩⟩
  · rw [hblocks] at hvisited ⊢
    split
    · exact .inl hle
    · next hne =>
        rw [if_neg hne] at hvisited
        exact (hsound.included b' hvisited).imp_right (hstay b' hne)
  · obtain ⟨hpassed, hdone⟩ := hsound.passed b' successor d hd
    rw [hblocks]
    split
    · next heq => subst heq; exact ⟨hpassed, .inl rfl⟩
    · next hne => exact ⟨hpassed, hdone.imp_right (hstay successor hne)⟩
  · rw [hblocks] at hvisited ⊢
    split at hvisited
    · exact absurd hvisited (by simp [BlockState.setVisited])
    · next hne =>
        rw [if_neg hne]
        rw [hrest] at hb'
        exact htrusted.fresh b' (fun hmem => hb' (hstay b' hne hmem)) hvisited
  · rw [hblocks] at hchanged hflag ⊢
    split
    · exact hle
    · next hne =>
        rw [if_neg hne] at hchanged hflag
        exact htrusted.flag b' hchanged hflag

omit [DecidableEq B] [DecidableEq D] [OrderBot D] in
/-- Blocks that are to be done may be left out when they need no visit. -/
theorem queued_sound {todo todo' : B → Prop} {c : Context B D} (h : Sound todo c)
    (htodo : ∀ b, todo b → todo' b ∨
      (c.blocks b).inputState ≤ (c.blocks b).outputState ∧ (c.blocks b).visited = true) :
    Sound todo' c := by
  constructor
  · intro b hvisited
    rcases h.included b hvisited with hle | hb
    · exact .inl hle
    · exact (htodo b hb).elim .inr fun hdone => .inl hdone.1
  · intro b successor d hd
    obtain ⟨hle, hvisited⟩ := h.passed b successor d hd
    refine ⟨hle, ?_⟩
    rcases hvisited with hvisited | hsuccessor
    · exact .inl hvisited
    · exact (htodo successor hsuccessor).elim .inr fun hdone => .inl hdone.2

/-- One visit keeps the invariant. -/
theorem visitFront_spec (t : Transfer σ B D) (s : σ) {c : Context B D} {b : B} {rest : List B}
    (hdeque : c.deque = b :: rest) (hsound : Sound (fun b => b ∈ c.deque) c)
    (htrusted : Trusted c) :
    Sound (fun b' => b' ∈ (visitFront t s c b).2.deque) (visitFront t s c b).2 ∧
      Trusted (visitFront t s c b).2 := by
  have hb : b ∈ c.deque := by simp [hdeque]
  obtain ⟨hsound', htrusted', hle⟩ := visitInstructions_spec t s hsound htrusted hb
  have hdeque' : (visitInstructions t s c b).2.deque = c.deque := rfl
  unfold visitFront
  generalize visitInstructions t s c b = visited at hsound' htrusted' hle hdeque'
  obtain ⟨s', c'⟩ := visited
  simp only at hsound' htrusted' hle hdeque' ⊢
  have hparts := visitBranchInst_le t s' b (c'.blocks b).outputState
  generalize visitBranchInst t s' b (c'.blocks b).outputState = targets at hparts
  -- the targets of the branch are to be done until the successors are queued
  have hout₂ := foldl_pass_outputState c' b targets b
  obtain ⟨hsound₂, htrusted₂, hdeque₂, hin₂⟩ := foldl_pass_spec
    (fun b' => b' ∈ c.deque ∨ b' ∈ targets.map Prod.fst)
    (fun target htarget => .inr (List.mem_map_of_mem htarget)) hparts hle
    (hsound'.mono fun _ => Or.inl) htrusted'
  generalize targets.foldl (Context.pass b) c' = c₂ at hsound₂ htrusted₂ hdeque₂ hin₂ hout₂
  have hsame := addSuccessors_sameStates c₂ (targets.map Prod.fst)
  obtain ⟨htrusted₃, ⟨added, hadded⟩, hdone⟩ :=
    addSuccessors_spec htrusted₂ (targets.map Prod.fst)
  generalize c₂.addSuccessors (targets.map Prod.fst) = c₃ at hsame htrusted₃ hadded hdone
  rw [hdeque₂, hdeque', hdeque] at hadded
  refine popFront_spec hadded ?_ ?_ htrusted₃
  · rw [hsame.inputState, hsame.outputState, hout₂]
    exact hin₂
  · exact queued_sound (hsame.sound hsound₂) fun b' hb' => by
      rw [hsame.inputState, hsame.outputState, hsame.visited]
      rcases hb' with hmem | hmem
      · left
        rw [hadded]
        exact List.mem_append_left added (hdeque ▸ hmem)
      · exact hdone b' hmem

/-- A visit changes the output state of the front block only: the output state of any other block
is the one it had when it was last visited. -/
theorem visitFront_outputState (t : Transfer σ B D) (s : σ) (c : Context B D) {b b' : B}
    (hne : b' ≠ b) :
    ((visitFront t s c b).2.blocks b').outputState = (c.blocks b').outputState := by
  have hvisit : ((visitInstructions t s c b).2.blocks b').outputState =
      (c.blocks b').outputState := by rw [visitInstructions_blocks, if_neg hne]
  unfold visitFront
  generalize visitInstructions t s c b = visited at hvisit
  simp only [Context.popFront, Context.setBlock, Function.update_of_ne hne]
  rw [(addSuccessors_sameStates _ _).outputState, foldl_pass_outputState]
  exact hvisit

/-! ## Runs -/

theorem visitDeque_spec (t : Transfer σ B D) {fuel : Nat} {s s' : σ} {c c' : Context B D}
    (hsound : Sound (fun b => b ∈ c.deque) c) (htrusted : Trusted c)
    (hrun : visitDeque t fuel s c = some (s', c')) :
    Sound (fun b => b ∈ c'.deque) c' ∧ Trusted c' ∧ c'.deque = [] := by
  induction fuel generalizing s c with
  | zero =>
      unfold visitDeque at hrun
      split at hrun
      · next hempty =>
          obtain ⟨-, rfl⟩ := Prod.mk.inj (Option.some.inj hrun)
          exact ⟨hsound, htrusted, hempty⟩
      · exact absurd hrun (by simp)
  | succ fuel ih =>
      unfold visitDeque at hrun
      split at hrun
      · next hempty =>
          obtain ⟨-, rfl⟩ := Prod.mk.inj (Option.some.inj hrun)
          exact ⟨hsound, htrusted, hempty⟩
      · next b rest hdeque =>
          obtain ⟨hsound', htrusted'⟩ := visitFront_spec t s hdeque hsound htrusted
          exact ih hsound' htrusted' hrun

/-- What a call leaves for the next one: the entry node may have been given arguments without
being visited. -/
structure Left (entry : B) (c : Context B D) : Prop where
  sound : Sound (fun b => b = entry) c
  trusted : Trusted c
  deque : c.deque = []

omit [DecidableEq B] [DecidableEq D] in
theorem initial_left (entry : B) : Left entry (Context.initial : Context B D) where
  sound := ⟨fun _ hvisited => absurd hvisited (by simp [Context.initial, BlockState.initial]),
    fun _ _ _ hd => absurd hd (by simp [Context.initial])⟩
  trusted := ⟨fun _ _ _ => rfl, fun _ _ hflag =>
    absurd hflag (by simp [Context.initial, BlockState.initial])⟩
  deque := rfl

omit [DecidableEq D] in
/-- `updateArguments` changes the entry node only. -/
theorem updateArguments_left {entry : B} {c : Context B D} (h : Left entry c)
    (args : Arguments D) : Left entry (updateArguments c entry args) := by
  cases args with
  | empty => exact h
  | updated inputState changed =>
      -- joining into the input of the entry is passing a state to it, but for the record
      have hsound := pass_sound h.sound entry (entry, inputState) rfl
      have htrusted := pass_trusted h.trusted entry (entry, inputState)
      exact ⟨⟨hsound.included, fun b successor d hd =>
        hsound.passed b successor d (List.mem_cons_of_mem _ hd)⟩,
        ⟨htrusted.fresh, htrusted.flag⟩, h.deque⟩

theorem interpretFunction_spec {t : Transfer σ B D} {entry : B} {fuel : Nat} {args : Arguments D}
    {s s' : σ} {c c' : Context B D} (h : Left entry c) (hargs : updArgs c entry args = true)
    (hrun : interpretFunction t entry fuel args s c = some (s', c')) :
    Sound (fun b => b ∈ c'.deque) c' ∧ Trusted c' ∧ c'.deque = [] := by
  have hleft := updateArguments_left h args
  unfold interpretFunction at hrun
  rw [if_neg (by simp [hargs])] at hrun
  refine visitDeque_spec t ?_ ?_ hrun
  · have hsound : Sound (fun b => b ∈ [entry]) (updateArguments c entry args) :=
      hleft.sound.mono (by simp)
    exact ⟨hsound.included, hsound.passed⟩
  · refine ⟨fun b _ => hleft.trusted.fresh b ?_, hleft.trusted.flag⟩
    simp [hleft.deque]

theorem interpreted_left {t : Transfer σ B D} {entry : B} {c : Context B D}
    (h : Interpreted t entry c) : Left entry c := by
  induction h with
  | initial => exact initial_left entry
  | @call c c' fuel args s s' _ hrun ih =>
      cases hargs : updArgs c entry args with
      | true =>
          obtain ⟨hsound, htrusted, hempty⟩ := interpretFunction_spec ih hargs hrun
          exact ⟨hsound.mono (by simp [hempty]), htrusted, hempty⟩
      | false =>
          unfold interpretFunction at hrun
          rw [if_pos hargs] at hrun
          obtain ⟨-, rfl⟩ := Prod.mk.inj (Option.some.inj hrun)
          exact updateArguments_left ih args

/-- A loop: the entry, a block that branches to itself and to the exit, and the exit. -/
def loopTransfer : Transfer Unit Nat Nat where
  terminator
    | 0 => .unconditional 1
    | 1 => .conditional 1 2
    | _ => .exit
  visit _ b d := ((), if b = 1 then max d (min (d + 1) 3) else d)
  inflationary _ b d := by
    split
    · exact le_max_left _ _
    · exact le_rfl
  condition _ _ _ := .unknown
  split _ _ d := (d, d)
  split_le _ _ _ := ⟨le_rfl, le_rfl⟩

end Borealis.Worklist
