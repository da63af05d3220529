import Borealis.Interpreter.StateSplit

/-!
# The transfer of a switch

`Interpreter::visitSwitchInst`.  For every case that the domain of the condition meets, and for the
default, the state is joined into the input of the target and the condition is then assigned, in
that input, the value of the case.  The assignment replaces what was joined: what the target's
input said of the condition before, and what another case with the same target has put there.

## Strategy

`handled` lists the targets with the values assigned there.  Apart from the condition, handling a
target only joins, so it loses nothing (`foldl_rest`).  The condition has the last value assigned
for its target (`foldl_condition`), and this value must cover the members of the earlier input and
the values that select the target.
-/

namespace Borealis.SwitchTransfer

open StateSplit

/-- The domains of a storage besides those of integers and Booleans, with what they describe: a join
describes what its arguments do, and every domain describes that nothing has a value. -/
structure OtherDomains where
  Domain : Type
  Concrete : Type
  join : Domain → Domain → Domain
  Describes : Domain → Concrete → Prop
  describes_join : ∀ a b c, Describes a c ∨ Describes b c → Describes (join a b) c
  nothing : Concrete
  describes_nothing : ∀ a, Describes a nothing

/-- `DomainStorage`, with its environments. -/
structure State (V : Type) (O : OtherDomains) where
  ints : IntEnv V
  bools : V → Option (Interval.Ptr false 1)
  other : O.Domain

variable {V B : Type} [DecidableEq V] [DecidableEq B] {O : OtherDomains} {width : Nat}

/-- `joinWith` of one entry of an environment. -/
def joinEntry {D : Type} (join : D → D → D) : Option D → Option D → Option D
  | some a, some b => some (join a b)
  | none, b => b
  | a, none => a

/-- `DomainStorage::joinWith`. -/
def State.joinWith (this other : State V O) : State V O where
  ints width x := joinEntry DoubleInterval.join (this.ints width x) (other.ints width x)
  bools x := joinEntry Interval.join (this.bools x) (other.bools x)
  other := O.join this.other other.other

/-- `addToInput`. -/
def State.assign (this : State V O) (x : Operand V width) (domain : DoubleInterval width) :
    State V O :=
  { this with ints := StateSplit.assign this.ints x domain }

/-- A `switch` instruction on an integer of more than one bit. -/
structure Switch (V B : Type) where
  width : Nat
  wide : 1 < width
  condition : Operand V width
  cases : List (BitVec width × B)
  defaultDest : B

/-- The inputs of the blocks and the successors found so far. -/
structure Progress (V B : Type) (O : OtherDomains) where
  inputs : B → State V O
  successors : List B

/-- `handleCaseSuccessor`. -/
def handleCaseSuccessor (state : State V O) (condition : Operand V width)
    (p : Progress V B O) (bb : B) (caseValue : DoubleInterval width) : Progress V B O :=
  { inputs := Function.update p.inputs bb
      (((p.inputs bb).joinWith state).assign condition caseValue)
    successors := p.successors ++ [bb] }

/-- One case of the loop for a condition that is neither top nor bottom: the progress, and
whether the default is possible. -/
def visitCase (state : State V O) (condition : Operand V width) (integer : DoubleInterval width)
    (acc : Progress V B O × Bool) (cs : BitVec width × B) : Progress V B O × Bool :=
  let caseVal := getInteger cs.1
  if integer.intersects caseVal then
    (handleCaseSuccessor state condition acc.1 cs.2 caseVal,
      if integer.isConstant then false else acc.2)
  else acc

/-- `visitSwitchInst`: the inputs of the blocks and the successors handed to `addSuccessors`.  A
condition without a domain is a null pointer. -/
def visitSwitchInst (state : State V O) (i : Switch V B) (inputs : B → State V O) :
    Option (Progress V B O) := do
  let cond ← get state.ints i.condition
  let start : Progress V B O := ⟨inputs, []⟩
  if !cond.isTop && !cond.isBottom then
    let (p, isDefault) := i.cases.foldl (visitCase state i.condition cond) (start, true)
    return if isDefault then handleCaseSuccessor state i.condition p i.defaultDest cond else p
  else
    let p := i.cases.foldl (fun p cs =>
      handleCaseSuccessor state i.condition p cs.2 (getInteger cs.1)) start
    return handleCaseSuccessor state i.condition p i.defaultDest cond

/-- The block that a value of the condition selects. -/
def Switch.select (i : Switch V B) (v : BitVec i.width) : B :=
  match i.cases.find? fun cs => cs.1 == v with
  | some cs => cs.2
  | none => i.defaultDest

/-! ## What states describe -/

/-- The values of the variables that have one, and the rest of a concrete state. -/
structure Concrete (V : Type) (O : OtherDomains) extends Valuation V where
  other : O.Concrete

/-- The operand is this variable. -/
def IsVar (o : Operand V width) (width' : Nat) (x : V) : Prop :=
  width' = width ∧ o = .var x

/-- The entries of the integer variables that meet a predicate describe their values. -/
def DescribesInts (sel : Nat → V → Prop) (state : State V O) (ρ : Concrete V O) : Prop :=
  ∀ width x v, sel width x → ρ.ints width x = some v →
    ∃ d, state.ints width x = some d ∧ v ∈ d

/-- A state describes what its entries do; a variable without an entry has no value yet. -/
def Describes (state : State V O) (ρ : Concrete V O) : Prop :=
  DescribesInts (fun _ _ => True) state ρ ∧
    (∀ x b, ρ.bools x = some b → ∃ d, state.bools x = some d ∧ (⟨b⟩ : BitInt false 1) ∈ d) ∧
      O.Describes state.other ρ.other

/-- A state describes everything but the value of the condition. -/
def DescribesRest (condition : Operand V width) (state : State V O) (ρ : Concrete V O) : Prop :=
  DescribesInts (fun width' x => ¬ IsVar condition width' x) state ρ ∧
    (∀ x b, ρ.bools x = some b → ∃ d, state.bools x = some d ∧ (⟨b⟩ : BitInt false 1) ∈ d) ∧
      O.Describes state.other ρ.other

/-- The transfer is sound: what the state describes is described by the input of the selected
block, which is a successor, and the inputs describe what they did. -/
def Sound (state : State V O) (i : Switch V B) (inputs : B → State V O) : Prop :=
  ∃ p, visitSwitchInst state i inputs = some p ∧
    (∀ ρ v, Describes state ρ → i.condition.value ρ.toValuation = some v →
      i.select v ∈ p.successors ∧ Describes (p.inputs (i.select v)) ρ) ∧
    ∀ b ρ, Describes (inputs b) ρ → Describes (p.inputs b) ρ

/-! ## The targets and what is assigned there -/

/-- The targets that are handled, in order, with the domains assigned to the condition. -/
def handled (i : Switch V B) (cond : DoubleInterval i.width) :
    List (B × DoubleInterval i.width) :=
  if !cond.isTop && !cond.isBottom then
    let hits := (i.cases.filter fun cs => cond.intersects (getInteger cs.1)).map fun cs =>
      (cs.2, getInteger cs.1)
    if cond.isConstant && !hits.isEmpty then hits else hits ++ [(i.defaultDest, cond)]
  else (i.cases.map fun cs => (cs.2, getInteger cs.1)) ++ [(i.defaultDest, cond)]

/-- The domain assigned last for a block. -/
def lastAssigned {D : Type} : List (B × D) → B → Option D
  | [], _ => none
  | (b', d) :: rest, b => (lastAssigned rest b).or (if b' = b then some d else none)

/-- Every value of the condition is in the domain assigned last for the block it selects, and so
is every value that the input of a block admitted before; a constant condition selects a block
that is handled. -/
def Covered (state : State V O) (i : Switch V B) (inputs : B → State V O) : Prop :=
  ∃ cond, get state.ints i.condition = some cond ∧
    match i.condition with
    | .constant n => i.select n ∈ (handled i cond).map Prod.fst
    | .var x =>
        (∀ v ∈ cond, ∃ d, lastAssigned (handled i cond) (i.select v) = some d ∧ v ∈ d) ∧
          ∀ b d, lastAssigned (handled i cond) b = some d →
            ∀ d', (inputs b).ints i.width x = some d' → ∀ v ∈ d', v ∈ d

/-- One handled target. -/
def step (state : State V O) (condition : Operand V width) (p : Progress V B O)
    (target : B × DoubleInterval width) : Progress V B O :=
  handleCaseSuccessor state condition p target.1 target.2

theorem foldl_visitCase (state : State V O) (condition : Operand V width)
    (integer : DoubleInterval width) (cases : List (BitVec width × B)) (p : Progress V B O)
    (isDefault : Bool) :
    cases.foldl (visitCase state condition integer) (p, isDefault) =
      (((cases.filter fun cs => integer.intersects (getInteger cs.1)).map fun cs =>
          (cs.2, getInteger cs.1)).foldl (step state condition) p,
        isDefault && !(integer.isConstant &&
          !(cases.filter fun cs => integer.intersects (getInteger cs.1)).isEmpty)) := by
  induction cases generalizing p isDefault with
  | nil => simp
  | cons cs cases ih =>
      rw [List.foldl_cons]
      cases hmeets : integer.intersects (getInteger cs.1) with
      | false => simp [visitCase, hmeets, ih]
      | true =>
          simp only [visitCase, hmeets, if_true, ih, List.filter_cons, List.map_cons,
            List.foldl_cons, List.isEmpty_cons, Bool.not_false, Bool.and_true]
          cases integer.isConstant <;> simp [step]

/-- A visit handles the targets one after the other. -/
theorem visitSwitchInst_eq (state : State V O) (i : Switch V B) (inputs : B → State V O) :
    visitSwitchInst state i inputs = (get state.ints i.condition).map fun cond =>
      (handled i cond).foldl (step state i.condition) ⟨inputs, []⟩ := by
  unfold visitSwitchInst
  cases hcond : get state.ints i.condition with
  | none => rfl
  | some cond =>
      simp only [Option.bind_eq_bind, Option.bind_some, Option.map_some, handled, foldl_visitCase]
      split
      · cases hdefault : cond.isConstant &&
          !(i.cases.filter fun cs => cond.intersects (getInteger cs.1)).isEmpty
        · simp [hdefault, List.foldl_append, step]
        · simp [hdefault]
      · simp [List.foldl_append, List.foldl_map, step]

/-! ## What a visit keeps -/

omit [DecidableEq V] in
theorem describes_iff (condition : Operand V width) (state : State V O) (ρ : Concrete V O) :
    Describes state ρ ↔ DescribesRest condition state ρ ∧
      DescribesInts (fun width' x => IsVar condition width' x) state ρ := by
  constructor
  · rintro ⟨hints, hrest⟩
    exact ⟨⟨fun width x v _ => hints width x v trivial, hrest⟩,
      fun width x v _ => hints width x v trivial⟩
  · rintro ⟨⟨hints, hrest⟩, hcondition⟩
    refine ⟨fun width' x v _ hv => ?_, hrest⟩
    by_cases hvar : IsVar condition width' x
    · exact hcondition width' x v hvar hv
    · exact hints width' x v hvar hv

omit [DecidableEq V] in
theorem exists_joinEntry {D : Type} {join : D → D → D} {Mem : D → Prop}
    (hjoin : ∀ a b, Mem a ∨ Mem b → Mem (join a b)) {a b : Option D}
    (h : (∃ d, a = some d ∧ Mem d) ∨ ∃ d, b = some d ∧ Mem d) :
    ∃ d, joinEntry join a b = some d ∧ Mem d := by
  rcases h with ⟨d, rfl, hd⟩ | ⟨d, rfl, hd⟩
  · cases b with
    | none => exact ⟨d, rfl, hd⟩
    | some e => exact ⟨join d e, rfl, hjoin d e (.inl hd)⟩
  · cases a with
    | none => exact ⟨d, rfl, hd⟩
    | some e => exact ⟨join e d, rfl, hjoin e d (.inr hd)⟩

theorem assign_other (env : IntEnv V) (condition : Operand V width) (d : DoubleInterval width)
    {width' : Nat} {x : V} (hvar : ¬ IsVar condition width' x) :
    StateSplit.assign env condition d width' x = env width' x := by
  cases condition with
  | constant n => rfl
  | var y => exact assign_var_ne env d fun ⟨hwidth, hx⟩ => hvar ⟨hwidth, hx ▸ rfl⟩

/-- Handling a target loses nothing but what the input says of the condition. -/
theorem describesRest_step (condition : Operand V width) (d : DoubleInterval width)
    {input state : State V O} {ρ : Concrete V O}
    (h : DescribesRest condition input ρ ∨ DescribesRest condition state ρ) :
    DescribesRest condition ((input.joinWith state).assign condition d) ρ := by
  refine ⟨fun width' x v hvar hv => ?_, fun x b hb => ?_, ?_⟩
  · have hentry := exists_joinEntry (fun a b => DoubleInterval.mem_join (x := v))
      (h.imp (fun hρ => hρ.1 width' x v hvar hv) fun hρ => hρ.1 width' x v hvar hv)
    obtain ⟨e, he, hmem⟩ := hentry
    exact ⟨e, (assign_other _ condition d hvar).trans he, hmem⟩
  · exact exists_joinEntry (fun a c => Interval.mem_join (x := ⟨b⟩))
      (h.imp (fun hρ => hρ.2.1 x b hb) fun hρ => hρ.2.1 x b hb)
  · exact O.describes_join _ _ _ (h.imp (fun hρ => hρ.2.2) fun hρ => hρ.2.2)

section

variable (state : State V O) (condition : Operand V width)

theorem step_inputs (p : Progress V B O) (target : B × DoubleInterval width) (b : B) :
    (step state condition p target).inputs b = if b = target.1 then
      ((p.inputs target.1).joinWith state).assign condition target.2 else p.inputs b := by
  simp [step, handleCaseSuccessor, Function.update_apply]

theorem foldl_successors (targets : List (B × DoubleInterval width)) (p : Progress V B O) :
    (targets.foldl (step state condition) p).successors =
      p.successors ++ targets.map Prod.fst := by
  induction targets generalizing p with
  | nil => simp
  | cons target targets ih => rw [List.foldl_cons, ih]; simp [step, handleCaseSuccessor]

/-- Apart from the condition, the inputs describe what they did and, where they were handled, what
the state does. -/
theorem foldl_rest (targets : List (B × DoubleInterval width)) (p : Progress V B O) (b : B)
    {ρ : Concrete V O} (h : DescribesRest condition (p.inputs b) ρ ∨
      b ∈ targets.map Prod.fst ∧ DescribesRest condition state ρ) :
    DescribesRest condition ((targets.foldl (step state condition) p).inputs b) ρ := by
  induction targets generalizing p with
  | nil => simpa using h
  | cons target targets ih =>
      refine ih (step state condition p target) ?_
      rw [step_inputs]
      by_cases hb : b = target.1
      · left
        rw [if_pos hb, ← hb]
        exact describesRest_step condition target.2 (h.imp_right And.right)
      · rw [if_neg hb]
        exact h.imp_right fun ⟨hmem, hρ⟩ => ⟨by simpa [hb] using hmem, hρ⟩

theorem foldl_unhandled (targets : List (B × DoubleInterval width)) (p : Progress V B O) {b : B}
    (hb : b ∉ targets.map Prod.fst) :
    (targets.foldl (step state condition) p).inputs b = p.inputs b := by
  induction targets generalizing p with
  | nil => rfl
  | cons target targets ih =>
      simp only [List.map_cons, List.mem_cons, not_or] at hb
      rw [List.foldl_cons, ih _ hb.2, step_inputs, if_neg hb.1]

omit [DecidableEq V] in
theorem lastAssigned_eq_none_iff {D : Type} {targets : List (B × D)} {b : B} :
    lastAssigned targets b = none ↔ b ∉ targets.map Prod.fst := by
  induction targets with
  | nil => simp [lastAssigned]
  | cons target targets ih =>
      obtain ⟨b', d⟩ := target
      simp only [lastAssigned, Option.or_eq_none_iff, ih, List.map_cons, List.mem_cons, not_or]
      rw [and_comm]
      refine and_congr_left fun _ => ?_
      split
      · next h => simp [h]
      · next h => simp [Ne.symm h]

/-- The condition has the domain assigned last. -/
theorem foldl_condition (x : V) (targets : List (B × DoubleInterval width))
    (p : Progress V B O) {b : B} {d : DoubleInterval width}
    (hd : lastAssigned targets b = some d) :
    ((targets.foldl (step state (.var x)) p).inputs b).ints width x = some d := by
  induction targets generalizing p with
  | nil => exact absurd hd (by simp [lastAssigned])
  | cons target targets ih =>
      rw [List.foldl_cons]
      cases hlast : lastAssigned targets b with
      | some e =>
          simp only [lastAssigned, hlast, Option.some_or] at hd
          exact ih _ (hlast.trans hd)
      | none =>
          simp only [lastAssigned, hlast, Option.none_or] at hd
          split at hd
          · next hb =>
              rw [foldl_unhandled _ _ _ _ (lastAssigned_eq_none_iff.mp hlast), step_inputs,
                if_pos hb.symm]
              rw [← Option.some.inj hd]
              exact assign_var_self _ x target.2
          · exact absurd hd (by simp)

end

/-! ## When the transfer is sound -/

/-- The concrete state in which one integer variable has a value, and nothing else. -/
def only (O : OtherDomains) (width : Nat) (x : V) (v : BitVec width) : Concrete V O :=
  { single width x v with other := O.nothing }

theorem describes_only_iff {state : State V O} {x : V} {v : BitVec width} :
    Describes state (only O width x v) ↔ ∃ d, state.ints width x = some d ∧ v ∈ d := by
  constructor
  · intro h
    exact h.1 width x v trivial (by simp [only, single])
  · intro h
    refine ⟨fun width' x' v' _ hv' => ?_, fun x' b hb => absurd hb (by simp [only, single]),
      O.describes_nothing _⟩
    by_cases hwidth : width' = width
    · subst hwidth
      by_cases hx : x' = x
      · subst hx
        obtain rfl : v = v' := by simpa [only, single] using hv'
        exact h
      · simp [only, single, hx] at hv'
    · simp [only, single, Function.update_of_ne hwidth] at hv'

omit [DecidableEq V] in
theorem mem_handled_of_lastAssigned {D : Type} {targets : List (B × D)} {b : B} {d : D}
    (hd : lastAssigned targets b = some d) : b ∈ targets.map Prod.fst := by
  by_contra hmem
  rw [← lastAssigned_eq_none_iff, hd] at hmem
  exact absurd hmem (by simp)

/-- The visit of a switch whose condition has a domain. -/
theorem sound_iff_of_get {state : State V O} {i : Switch V B} (inputs : B → State V O)
    {cond : DoubleInterval i.width} (hcond : get state.ints i.condition = some cond) :
    Sound state i inputs ↔
      (∀ ρ v, Describes state ρ → i.condition.value ρ.toValuation = some v →
        i.select v ∈ (handled i cond).map Prod.fst ∧
          Describes (((handled i cond).foldl (step state i.condition) ⟨inputs, []⟩).inputs
            (i.select v)) ρ) ∧
        ∀ b ρ, Describes (inputs b) ρ →
          Describes (((handled i cond).foldl (step state i.condition) ⟨inputs, []⟩).inputs b) ρ := by
  have hvisit := visitSwitchInst_eq state i inputs
  rw [hcond, Option.map_some] at hvisit
  simp [Sound, hvisit, foldl_successors]

/-- A constant condition: nothing is assigned, so that a target only needs to be handled. -/
theorem covered_constant {state : State V O} {width : Nat} {wide : 1 < width} {n : BitVec width}
    {cases : List (BitVec width × B)} {defaultDest : B} {inputs : B → State V O} :
    Sound state ⟨width, wide, .constant n, cases, defaultDest⟩ inputs ↔
      Covered state ⟨width, wide, .constant n, cases, defaultDest⟩ inputs := by
  have hcond : get state.ints (⟨width, wide, .constant n, cases, defaultDest⟩ :
      Switch V B).condition = some (getInteger n) := rfl
  rw [sound_iff_of_get inputs hcond]
  have hnone : ∀ (st : State V O) (ρ : Concrete V O),
      Describes st ρ ↔ DescribesRest (.constant n : Operand V width) st ρ := fun st ρ => by
    rw [describes_iff (.constant n : Operand V width)]
    refine and_iff_left fun width' x v hvar => ?_
    exact absurd hvar.2 (by simp)
  constructor
  · rintro ⟨hselected, -⟩
    exact ⟨getInteger n, rfl, (hselected
      ⟨⟨fun _ _ => none, fun _ => none⟩, O.nothing⟩ n
      ⟨fun _ _ _ _ h => absurd h (by simp), fun _ _ h => absurd h (by simp),
        O.describes_nothing _⟩ rfl).1⟩
  · rintro ⟨cond, hcond, hcovered⟩
    obtain rfl : getInteger n = cond := Option.some.inj hcond
    refine ⟨fun ρ v hρ hv => ?_, fun b ρ hρ => ?_⟩
    · obtain rfl : n = v := Option.some.inj hv
      refine ⟨hcovered, ?_⟩
      rw [hnone] at hρ ⊢
      exact foldl_rest _ _ _ _ _ (.inr ⟨hcovered, hρ⟩)
    · rw [hnone] at hρ ⊢
      exact foldl_rest _ _ _ _ _ (.inl hρ)

/-- A variable condition: the domain assigned last decides. -/
theorem covered_var {state : State V O} {width : Nat} {wide : 1 < width} {x : V}
    {cases : List (BitVec width × B)} {defaultDest : B} {inputs : B → State V O} :
    Sound state ⟨width, wide, .var x, cases, defaultDest⟩ inputs ↔
      Covered state ⟨width, wide, .var x, cases, defaultDest⟩ inputs := by
  cases hget : state.ints width x with
  | none =>
      have hnone : get state.ints (.var x : Operand V width) = none := hget
      constructor
      · rintro ⟨p, hvisit, -⟩
        rw [visitSwitchInst_eq, hnone] at hvisit
        exact absurd hvisit (by simp)
      · rintro ⟨cond, hcond, -⟩
        exact absurd (hnone.symm.trans hcond) (by simp)
  | some cond =>
      have hcond : get state.ints
          (⟨width, wide, .var x, cases, defaultDest⟩ : Switch V B).condition = some cond := hget
      rw [sound_iff_of_get inputs hcond]
      -- what an input says of the condition after the visit
      have hafter : ∀ {b : B} {d : DoubleInterval width} {ρ : Concrete V O},
          lastAssigned (handled ⟨width, wide, .var x, cases, defaultDest⟩ cond) b = some d →
          (∀ v, ρ.ints width x = some v → v ∈ d) →
          DescribesInts (fun width' x' => IsVar (.var x : Operand V width) width' x')
            (((handled ⟨width, wide, .var x, cases, defaultDest⟩ cond).foldl
              (step state (.var x)) ⟨inputs, []⟩).inputs b) ρ := by
        rintro b d ρ hlast hmem width' x' v ⟨rfl, hx⟩ hv
        obtain rfl : x = x' := Operand.var.inj hx
        exact ⟨d, foldl_condition _ _ _ _ hlast, hmem v hv⟩
      have hentry : ∀ {b : B} {d : DoubleInterval width} {v : BitVec width},
          lastAssigned (handled ⟨width, wide, .var x, cases, defaultDest⟩ cond) b = some d →
          Describes (((handled ⟨width, wide, .var x, cases, defaultDest⟩ cond).foldl
            (step state (.var x)) ⟨inputs, []⟩).inputs b) (only O width x v) → v ∈ d := by
        intro b d v hlast hdescribes
        obtain ⟨e, he, hv⟩ := describes_only_iff.mp hdescribes
        rw [foldl_condition _ _ _ _ hlast] at he
        exact Option.some.inj he ▸ hv
      constructor
      · rintro ⟨hselected, hkept⟩
        refine ⟨cond, hget, fun v hv => ?_, fun b d hlast d' hd' v hv => ?_⟩
        · obtain ⟨hmem, hdescribes⟩ := hselected (only O width x v) v
            (describes_only_iff.mpr ⟨cond, hget, hv⟩) (by simp [Operand.value, only, single])
          obtain ⟨d, hlast⟩ := Option.ne_none_iff_exists'.mp
            (fun hnone => lastAssigned_eq_none_iff.mp hnone hmem)
          exact ⟨d, hlast, hentry hlast hdescribes⟩
        · exact hentry hlast (hkept b _ (describes_only_iff.mpr ⟨d', hd', hv⟩))
      · rintro ⟨cond', hcond', hselected, hkept⟩
        obtain rfl : cond = cond' := Option.some.inj (hget.symm.trans hcond')
        refine ⟨fun ρ v hρ hv => ?_, fun b ρ hρ => ?_⟩
        · have hv' : ρ.ints width x = some v := hv
          obtain ⟨e, he, hmem⟩ := hρ.1 width x v trivial hv'
          obtain rfl : cond = e := Option.some.inj (hget.symm.trans he)
          obtain ⟨d, hlast, hd⟩ := hselected v hmem
          have hblock := mem_handled_of_lastAssigned hlast
          refine ⟨hblock, (describes_iff (.var x : Operand V width) _ _).mpr ⟨?_, ?_⟩⟩
          · exact foldl_rest _ _ _ _ _ (.inr ⟨hblock, ((describes_iff _ _ _).mp hρ).1⟩)
          · refine hafter hlast fun v' hv'' => ?_
            rw [hv'] at hv''
            exact Option.some.inj hv'' ▸ hd
        · rw [describes_iff (.var x : Operand V width)] at hρ ⊢
          refine ⟨foldl_rest _ _ _ _ _ (.inl hρ.1), ?_⟩
          cases hlast : lastAssigned (handled ⟨width, wide, .var x, cases, defaultDest⟩ cond) b with
          | none =>
              intro width' x' v hvar hv
              rw [foldl_unhandled _ _ _ _ (lastAssigned_eq_none_iff.mp hlast)]
              exact hρ.2 width' x' v hvar hv
          | some d =>
              refine hafter hlast fun v hv => ?_
              obtain ⟨d', hd', hmem⟩ := hρ.2 width x v ⟨rfl, rfl⟩ hv
              exact hkept b d hlast d' hd' v hmem

/-- **A switch is transferred soundly exactly when its targets are covered.** -/
theorem sound_iff (state : State V O) (i : Switch V B) (inputs : B → State V O) :
    Sound state i inputs ↔ Covered state i inputs := by
  obtain ⟨width, wide, condition, cases, defaultDest⟩ := i
  cases condition with
  | constant n => exact covered_constant
  | var x => exact covered_var

/-- No other domains. -/
def noOtherDomains : OtherDomains where
  Domain := Unit
  Concrete := Unit
  join _ _ := ()
  Describes _ _ := True
  describes_join _ _ _ _ := trivial
  nothing := ()
  describes_nothing _ := trivial

/-- Two cases that share a target: `switch i8 %x, label 2 [0, label 1; 1, label 1]`. -/
def sharedTarget : Switch Nat Nat where
  width := 8
  wide := by decide
  condition := .var 0
  cases := [(0, 1), (1, 1)]
  defaultDest := 2

/-- The state in which `x` is from 0 to 9. -/
def digitState : State Nat noOtherDomains where
  ints := assign (fun _ _ => none) (.var 0 : Operand Nat 8)
    (DoubleInterval.interval (Interval.interval (.finite ⟨0⟩) (.finite ⟨9⟩))
      (Interval.interval (.finite ⟨0⟩) (.finite ⟨9⟩)))
  bools _ := none
  other := ()

/-- The state in which nothing has a value. -/
def emptyState : State Nat noOtherDomains where
  ints _ _ := none
  bools _ := none
  other := ()

/-- The value 0 selects block 1, whose input is left with the value 1 alone. -/
theorem sharedTarget_loses : ¬ ∀ (state : State Nat noOtherDomains) (i : Switch Nat Nat)
    (inputs : Nat → State Nat noOtherDomains), Sound state i inputs := by
  intro h
  obtain ⟨p, hvisit, hselected, -⟩ := h digitState sharedTarget fun _ => emptyState
  have hzero : Describes digitState (only noOtherDomains 8 0 0) :=
    describes_only_iff.mpr ⟨_, rfl, by decide⟩
  obtain ⟨-, hdescribes⟩ := hselected (only noOtherDomains 8 0 0) 0 hzero rfl
  have hlost : ∃ p, visitSwitchInst digitState sharedTarget (fun _ => emptyState) = some p ∧
      ((p.inputs 1).ints 8 0).all (fun d => decide ((0 : BitVec 8) ∉ d)) = true :=
    ⟨_, rfl, by rfl⟩
  obtain ⟨p', hvisit', hlost⟩ := hlost
  obtain rfl : p = p' := Option.some.inj (hvisit.symm.trans hvisit')
  obtain ⟨d, hd, hmem⟩ := describes_only_iff.mp hdescribes
  have hd' : (p.inputs 1).ints 8 0 = some d := hd
  rw [hd', Option.all_some, decide_eq_true_eq] at hlost
  exact hlost hmem

end Borealis.SwitchTransfer
