import Borealis.Lib.Kernel
import Borealis.Term.Term
import Mathlib.Data.List.Induction
import Mathlib.Data.Set.Basic

/-!
# Octagon states that share an object

A `DoubleOctagon` holds an octagon of signed and one of unsigned numbers, and is passed around as a
shared pointer.  `clone` returns the receiver itself, and `join` and `widen` clone the other side
when one is bottom, so two states of the analysis can be one object.  The octagons of Apron behave
as values: what they do is a parameter, and so is what a pair of them describes.

`shared_iff` says which states of a run are one object, from its history alone: those that were
handed out from one another.  An update in place is seen by all of them (`step_update`), so it leaves
the others alone exactly when there are none or when it changes nothing (`runs_independent_iff`).
-/

namespace Borealis

namespace DoubleOctagon

open Kernel Relation

/-- What `ApronDomain` offers: its octagons `O` over variables `V`, numbers `N` and intervals `I`,
with casters `C`. -/
structure Apron (O V N I C : Type) where
  top : C → O
  bottom : C → O
  caster : O → C
  isBottom : O → Bool
  setTop : O → O
  setBottom : O → O
  join : O → O → O
  meet : O → O → O
  widen : O → O → O
  assign : V → V → O → O
  assignInterval : V → I → O → O
  applyTo : ArithType → V → V ⊕ N → V ⊕ N → O → O
  addCondition : ConditionType → V ⊕ N → V ⊕ N → O → O

/-- A call that changes its receiver in place; a constant operand has a number for each octagon. -/
inductive Update (V N₁ N₂ I₁ I₂ : Type) where
  | setTop
  | setBottom
  | assign (x y : V)
  | assignInterval (x : V) (i : I₁ × I₂)
  | applyTo (op : ArithType) (x : V) (y z : V ⊕ N₁ × N₂)
  | addConstraint (op : ConditionType) (x y : V ⊕ N₁ × N₂)

/-- A call.  States are numbered in the order in which they are made. -/
inductive Op (V N₁ N₂ I₁ I₂ C₁ C₂ : Type) where
  | top (c₁ : C₁) (c₂ : C₂)
  | bottom (c₁ : C₁) (c₂ : C₂)
  | clone (i : Nat)
  | join (i j : Nat)
  | meet (i j : Nat)
  | widen (i j : Nat)
  | update (i : Nat) (u : Update V N₁ N₂ I₁ I₂)

/-- The objects, and the object each state points to. -/
structure Store (O₁ O₂ : Type) where
  objects : List (O₁ × O₂)
  states : List Nat

/-- No states. -/
def Store.empty {O₁ O₂ : Type} : Store O₁ O₂ := { objects := [], states := [] }

variable {O₁ O₂ V N₁ N₂ I₁ I₂ C₁ C₂ Val : Type}

section Code

variable (A₁ : Apron O₁ V N₁ I₁ C₁) (A₂ : Apron O₂ V N₂ I₂ C₂)

/-- `isBottom`. -/
def isBottom (o : O₁ × O₂) : Bool := A₁.isBottom o.1 && A₂.isBottom o.2

/-- `setTop`, `setBottom`, the overloads of `assign`, the arithmetic ones of `applyTo`, and those of
`addConstraint`: each octagon does its part. -/
def Update.apply : Update V N₁ N₂ I₁ I₂ → O₁ × O₂ → O₁ × O₂
  | .setTop, o => (A₁.setTop o.1, A₂.setTop o.2)
  | .setBottom, o => (A₁.setBottom o.1, A₂.setBottom o.2)
  | .assign x y, o => (A₁.assign x y o.1, A₂.assign x y o.2)
  | .assignInterval x i, o => (A₁.assignInterval x i.1 o.1, A₂.assignInterval x i.2 o.2)
  | .applyTo op x y z, o =>
    (A₁.applyTo op x (y.map id Prod.fst) (z.map id Prod.fst) o.1,
      A₂.applyTo op x (y.map id Prod.snd) (z.map id Prod.snd) o.2)
  | .addConstraint op x y, o =>
    (A₁.addCondition op (x.map id Prod.fst) (y.map id Prod.fst) o.1,
      A₂.addCondition op (x.map id Prod.snd) (y.map id Prod.snd) o.2)

/-- What the object of a state holds. -/
def value (s : Store O₁ O₂) (i : Nat) : Option (O₁ × O₂) := s.states[i]?.bind (s.objects[·]?)

/-- `make_shared`: a new object and a state that points to it. -/
def fresh (s : Store O₁ O₂) (o : O₁ × O₂) : Store O₁ O₂ :=
  { objects := s.objects ++ [o], states := s.states ++ [s.objects.length] }

/-- `clone`: `shared_from_this`, a state that points to the object of another. -/
def clone (s : Store O₁ O₂) (i : Nat) : Option (Store O₁ O₂) :=
  s.states[i]?.map fun p => { s with states := s.states ++ [p] }

/-- `join` and `widen`, which differ in what the octagons do. -/
def joinWith (f : O₁ → O₁ → O₁) (g : O₂ → O₂ → O₂) (s : Store O₁ O₂) (i j : Nat) :
    Option (Store O₁ O₂) :=
  (value s i).bind fun x =>
    (value s j).bind fun y =>
      if isBottom A₁ A₂ x then clone s j
      else if isBottom A₁ A₂ y then clone s i
      else some (fresh s (f x.1 y.1, g x.2 y.2))

/-- `meet`. -/
def meet (s : Store O₁ O₂) (i j : Nat) : Option (Store O₁ O₂) :=
  (value s i).bind fun x =>
    (value s j).map fun y =>
      if isBottom A₁ A₂ x || isBottom A₁ A₂ y then
        fresh s (A₁.bottom (A₁.caster x.1), A₂.bottom (A₂.caster x.2))
      else fresh s (A₁.meet x.1 y.1, A₂.meet x.2 y.2)

/-- A call on states that exist. -/
def step (s : Store O₁ O₂) : Op V N₁ N₂ I₁ I₂ C₁ C₂ → Option (Store O₁ O₂)
  | .top c₁ c₂ => some (fresh s (A₁.top c₁, A₂.top c₂))
  | .bottom c₁ c₂ => some (fresh s (A₁.bottom c₁, A₂.bottom c₂))
  | .clone i => clone s i
  | .join i j => joinWith A₁ A₂ A₁.join A₂.join s i j
  | .meet i j => meet A₁ A₂ s i j
  | .widen i j => joinWith A₁ A₂ A₁.widen A₂.widen s i j
  | .update i u => s.states[i]?.map fun p => { s with objects := s.objects.modify p (u.apply A₁ A₂) }

/-- A sequence of calls. -/
def run (ops : List (Op V N₁ N₂ I₁ I₂ C₁ C₂)) : Option (Store O₁ O₂) :=
  ops.foldlM (step A₁ A₂) Store.empty

/-! ## What the claim is about -/

/-- What a state describes. -/
def describes (γ : O₁ × O₂ → Set Val) (s : Store O₁ O₂) (i : Nat) : Option (Set Val) :=
  (value s i).map γ

/-- A call changes what the state it updates describes, and nothing else. -/
def Independent (γ : O₁ × O₂ → Set Val) (s : Store O₁ O₂) (op : Op V N₁ N₂ I₁ I₂ C₁ C₂) : Prop :=
  ∀ s', step A₁ A₂ s op = some s' → ∀ j < s.states.length, (∀ u, op ≠ .update j u) →
    describes γ s' j = describes γ s j

/-- The state that a call hands out again: the receiver of `clone`, and the side of `join` and
`widen` that is not bottom. -/
def handsOut (s : Store O₁ O₂) : Op V N₁ N₂ I₁ I₂ C₁ C₂ → Option Nat
  | .clone i => some i
  | .join i j | .widen i j =>
    (value s i).bind fun x =>
      (value s j).bind fun y =>
        if isBottom A₁ A₂ x then some j else if isBottom A₁ A₂ y then some i else none
  | _ => none

/-- In a run, the state `a` was handed out again as the state `b`. -/
def HandedOut (ops : List (Op V N₁ N₂ I₁ I₂ C₁ C₂)) (a b : Nat) : Prop :=
  ∃ pre op post s, ops = pre ++ op :: post ∧ run A₁ A₂ pre = some s ∧
    handsOut A₁ A₂ s op = some a ∧ b = s.states.length

/-- States that were handed out from one another, in any number of calls. -/
def Shared (ops : List (Op V N₁ N₂ I₁ I₂ C₁ C₂)) : Nat → Nat → Prop :=
  EqvGen (HandedOut A₁ A₂ ops)

end Code

variable {A₁ : Apron O₁ V N₁ I₁ C₁} {A₂ : Apron O₂ V N₂ I₂ C₂}

/-! ## What a call does to the objects -/

/-- A call updates an object, hands one out again or makes one. -/
theorem step_cases {s s' : Store O₁ O₂} {op : Op V N₁ N₂ I₁ I₂ C₁ C₂}
    (h : step A₁ A₂ s op = some s') :
    (∃ i u p, op = .update i u ∧ s.states[i]? = some p ∧
      s' = { s with objects := s.objects.modify p (u.apply A₁ A₂) }) ∨
    (∃ i p, (∀ j u, op ≠ .update j u) ∧ handsOut A₁ A₂ s op = some i ∧ s.states[i]? = some p ∧
      s' = { s with states := s.states ++ [p] }) ∨
    ∃ o, (∀ j u, op ≠ .update j u) ∧ handsOut A₁ A₂ s op = none ∧ s' = fresh s o := by
  have hclone : ∀ {i}, clone s i = some s' →
      ∃ p, s.states[i]? = some p ∧ s' = { s with states := s.states ++ [p] } := by
    intro i hi
    obtain ⟨p, hp, rfl⟩ := Option.map_eq_some_iff.mp hi
    exact ⟨p, hp, rfl⟩
  have hjoin : ∀ {f g i j}, joinWith A₁ A₂ f g s i j = some s' →
      (∃ k p, (value s i).bind (fun x => (value s j).bind fun y =>
          if isBottom A₁ A₂ x then some j else if isBottom A₁ A₂ y then some i else none) = some k ∧
        s.states[k]? = some p ∧ s' = { s with states := s.states ++ [p] }) ∨
      ∃ o, (value s i).bind (fun x => (value s j).bind fun y =>
          if isBottom A₁ A₂ x then some j else if isBottom A₁ A₂ y then some i else none) = none ∧
        s' = fresh s o := by
    intro f g i j hrun
    obtain ⟨x, hx, hrun⟩ := Option.bind_eq_some_iff.mp hrun
    obtain ⟨y, hy, hrun⟩ := Option.bind_eq_some_iff.mp hrun
    simp only [hx, hy, Option.bind_some]
    split at hrun
    case isTrue hbot =>
      obtain ⟨p, hp, rfl⟩ := hclone hrun
      exact Or.inl ⟨j, p, if_pos hbot, hp, rfl⟩
    case isFalse hbot =>
      rw [if_neg hbot]
      split at hrun
      case isTrue hbot' =>
        obtain ⟨p, hp, rfl⟩ := hclone hrun
        exact Or.inl ⟨i, p, if_pos hbot', hp, rfl⟩
      case isFalse hbot' => exact Or.inr ⟨_, if_neg hbot', (Option.some.inj hrun).symm⟩
  cases op with
  | top c₁ c₂ => exact Or.inr (Or.inr ⟨_, by simp, rfl, (Option.some.inj h).symm⟩)
  | bottom c₁ c₂ => exact Or.inr (Or.inr ⟨_, by simp, rfl, (Option.some.inj h).symm⟩)
  | clone i =>
      obtain ⟨p, hp, rfl⟩ := hclone h
      exact Or.inr (Or.inl ⟨i, p, by simp, rfl, hp, rfl⟩)
  | join i j =>
      rcases hjoin h with ⟨k, p, hk, hp, rfl⟩ | ⟨o, hnone, rfl⟩
      · exact Or.inr (Or.inl ⟨k, p, by simp, hk, hp, rfl⟩)
      · exact Or.inr (Or.inr ⟨o, by simp, hnone, rfl⟩)
  | meet i j =>
      obtain ⟨x, -, h⟩ := Option.bind_eq_some_iff.mp h
      obtain ⟨y, -, h⟩ := Option.map_eq_some_iff.mp h
      split at h
      · exact Or.inr (Or.inr ⟨_, by simp, rfl, h.symm⟩)
      · exact Or.inr (Or.inr ⟨_, by simp, rfl, h.symm⟩)
  | widen i j =>
      rcases hjoin h with ⟨k, p, hk, hp, rfl⟩ | ⟨o, hnone, rfl⟩
      · exact Or.inr (Or.inl ⟨k, p, by simp, hk, hp, rfl⟩)
      · exact Or.inr (Or.inr ⟨o, by simp, hnone, rfl⟩)
  | update i u =>
      obtain ⟨p, hp, rfl⟩ := Option.map_eq_some_iff.mp h
      exact Or.inl ⟨i, u, p, rfl, hp, rfl⟩

/-- Every state points to an object. -/
def Pointed (s : Store O₁ O₂) : Prop := ∀ p ∈ s.states, p < s.objects.length

/-- The object of a state; a number that is no state yet has one of its own. -/
def objectOf (s : Store O₁ O₂) (i : Nat) : Nat := s.states[i]?.getD (s.objects.length + i)

theorem objectOf_of_getElem? {s : Store O₁ O₂} {i p : Nat} (h : s.states[i]? = some p) :
    objectOf s i = p := by
  rw [objectOf, h, Option.getD_some]

theorem objectOf_of_length_le {s : Store O₁ O₂} {i : Nat} (h : s.states.length ≤ i) :
    objectOf s i = s.objects.length + i := by
  rw [objectOf, List.getElem?_eq_none h, Option.getD_none]

theorem Pointed.objectOf_lt {s : Store O₁ O₂} (h : Pointed s) {i : Nat}
    (hi : i < s.states.length) : objectOf s i < s.objects.length := by
  rw [objectOf_of_getElem? (List.getElem?_eq_getElem hi)]
  exact h _ (List.getElem_mem hi)

/-- **A new state that points to the object of another one** joins its class. -/
theorem Pointed.objectOf_append {s : Store O₁ O₂} (hs : Pointed s) {i p : Nat}
    (hp : s.states[i]? = some p) (a : Nat) :
    objectOf { s with states := s.states ++ [p] } a =
      merge (objectOf s s.states.length) (objectOf s i) (objectOf s a) := by
  rw [objectOf_of_getElem? hp, objectOf_of_length_le (Nat.le_refl _)]
  rcases Nat.lt_trichotomy a s.states.length with hlt | rfl | hgt
  · have hsmall := hs.objectOf_lt hlt
    rw [merge_of_ne (by omega), objectOf, objectOf, List.getElem?_append_left hlt]
  · rw [objectOf_of_length_le (Nat.le_refl _), merge_self]
    simp [objectOf]
  · rw [objectOf_of_length_le (Nat.le_of_lt hgt), merge_of_ne (by omega),
      objectOf_of_length_le (by simpa using Nat.succ_le_of_lt hgt)]

/-- **A new state with a new object**: the objects of the states before it stay, and the numbers
that are no states yet move by one. -/
theorem Pointed.objectOf_fresh {s : Store O₁ O₂} (hs : Pointed s) (o : O₁ × O₂) (a : Nat) :
    (a < s.states.length ∧ objectOf s a < s.objects.length ∧
        objectOf (fresh s o) a = objectOf s a) ∨
      (a = s.states.length ∧ objectOf s a = s.objects.length + a ∧
        objectOf (fresh s o) a = s.objects.length) ∨
      (s.states.length < a ∧ objectOf s a = s.objects.length + a ∧
        objectOf (fresh s o) a = s.objects.length + 1 + a) := by
  rcases Nat.lt_trichotomy a s.states.length with hlt | rfl | hgt
  · refine Or.inl ⟨hlt, hs.objectOf_lt hlt, ?_⟩
    rw [objectOf, objectOf, fresh, List.getElem?_append_left hlt,
      List.getElem?_eq_getElem hlt, Option.getD_some, Option.getD_some]
  · refine Or.inr (Or.inl ⟨rfl, objectOf_of_length_le (Nat.le_refl _), ?_⟩)
    simp [objectOf, fresh]
  · refine Or.inr (Or.inr ⟨hgt, objectOf_of_length_le (Nat.le_of_lt hgt), ?_⟩)
    rw [objectOf_of_length_le (by simpa [fresh] using Nat.succ_le_of_lt hgt)]
    simp [fresh]

/-- A state that exists has a value. -/
theorem value_eq {s : Store O₁ O₂} {i p : Nat} (h : s.states[i]? = some p) :
    value s i = s.objects[p]? := by
  rw [value, h, Option.bind_some]

theorem step_pointed {s s' : Store O₁ O₂} {op : Op V N₁ N₂ I₁ I₂ C₁ C₂} (hs : Pointed s)
    (h : step A₁ A₂ s op = some s') : Pointed s' := by
  rcases step_cases h with ⟨i, u, p, -, -, rfl⟩ | ⟨i, p, -, -, hp, rfl⟩ | ⟨o, -, -, rfl⟩
  · intro q hq
    simpa using hs q hq
  · intro q hq
    rcases List.mem_append.mp hq with hq | hq
    · exact hs q hq
    · rw [List.mem_singleton.mp hq]
      exact hs p (List.mem_of_getElem? hp)
  · intro q hq
    rw [fresh, List.length_append, List.length_singleton]
    rcases List.mem_append.mp hq with hq | hq
    · exact Nat.lt_succ_of_lt (hs q hq)
    · rw [List.mem_singleton.mp hq]
      exact Nat.lt_succ_self _

/-- **Calls leave every state alone that does not point to the object they update.** -/
theorem step_frame {s s' : Store O₁ O₂} {op : Op V N₁ N₂ I₁ I₂ C₁ C₂} (hs : Pointed s)
    (h : step A₁ A₂ s op = some s') {j : Nat} (hj : j < s.states.length)
    (hother : ∀ i u, op = .update i u → objectOf s i ≠ objectOf s j) :
    value s' j = value s j := by
  have hptr := List.getElem?_eq_getElem hj
  rcases step_cases h with ⟨i, u, p, rfl, hp, rfl⟩ | ⟨i, p, -, -, hp, rfl⟩ | ⟨o, -, -, rfl⟩
  · have hne : p ≠ s.states[j] := by
      have := hother i u rfl
      rwa [objectOf_of_getElem? hp, objectOf_of_getElem? hptr] at this
    simp only [value, hptr, Option.bind_some, List.getElem?_modify_ne _ _ hne]
  · have hptr' : (s.states ++ [p])[j]? = some s.states[j] := by
      rw [List.getElem?_append_left hj, hptr]
    rw [value_eq hptr, value_eq hptr']
  · have hptr' : (fresh s o).states[j]? = some s.states[j] := by
      rw [fresh, List.getElem?_append_left hj, hptr]
    rw [value_eq hptr, value_eq hptr', fresh,
      List.getElem?_append_left (hs _ (List.getElem_mem hj))]

/-- **An update in place is seen by every state that points to the object.** -/
theorem step_update {s s' : Store O₁ O₂} {i : Nat} {u : Update V N₁ N₂ I₁ I₂}
    (h : step A₁ A₂ s (.update i u) = some s') {j : Nat} (hj : j < s.states.length)
    (hsame : objectOf s i = objectOf s j) :
    value s' j = (value s i).map (u.apply A₁ A₂) := by
  obtain ⟨p, hp, rfl⟩ := Option.map_eq_some_iff.mp h
  have hptr : s.states[j]? = some p := by
    rw [objectOf_of_getElem? hp, objectOf_of_getElem? (List.getElem?_eq_getElem hj)] at hsame
    rw [hsame]
    exact List.getElem?_eq_getElem hj
  simp only [value, hptr, hp, Option.bind_some, List.getElem?_modify_eq]
  rfl

/-! ## What a run shares -/

theorem run_append (ops : List (Op V N₁ N₂ I₁ I₂ C₁ C₂)) (op : Op V N₁ N₂ I₁ I₂ C₁ C₂) :
    run A₁ A₂ (ops ++ [op]) = (run A₁ A₂ ops).bind fun s => step A₁ A₂ s op := by
  simp [run, List.foldlM_append]

theorem handedOut_append {ops : List (Op V N₁ N₂ I₁ I₂ C₁ C₂)} {op : Op V N₁ N₂ I₁ I₂ C₁ C₂}
    {s : Store O₁ O₂} (hs : run A₁ A₂ ops = some s) {a b : Nat} :
    HandedOut A₁ A₂ (ops ++ [op]) a b ↔
      HandedOut A₁ A₂ ops a b ∨ handsOut A₁ A₂ s op = some a ∧ b = s.states.length := by
  constructor
  · rintro ⟨pre, op', post, s₁, heq, hpre, hhands, hb⟩
    rcases List.eq_nil_or_concat post with rfl | ⟨post, last, rfl⟩
    · obtain ⟨rfl, hop⟩ := List.append_inj' heq rfl
      obtain rfl := (List.cons.inj hop).1
      obtain rfl := Option.some.inj (hs.symm.trans hpre)
      exact Or.inr ⟨hhands, hb⟩
    · rw [List.concat_eq_append, ← List.cons_append, ← List.append_assoc] at heq
      exact Or.inl ⟨pre, op', post, s₁, (List.append_inj' heq rfl).1, hpre, hhands, hb⟩
  · rintro (⟨pre, op', post, s₁, rfl, hpre, hhands, hb⟩ | ⟨hhands, hb⟩)
    · exact ⟨pre, op', post ++ [op], s₁, by simp, hpre, hhands, hb⟩
    · exact ⟨ops, op, [], s, rfl, hs, hhands, hb⟩

/-- **Two states are one object exactly if they were handed out from one another.** -/
theorem shared_iff {ops : List (Op V N₁ N₂ I₁ I₂ C₁ C₂)} {s : Store O₁ O₂}
    (h : run A₁ A₂ ops = some s) :
    Pointed s ∧ ∀ a b, objectOf s a = objectOf s b ↔ Shared A₁ A₂ ops a b := by
  induction ops using List.reverseRecOn generalizing s with
  | nil =>
      obtain rfl : Store.empty = s := Option.some.inj h
      have hnone : HandedOut A₁ A₂ ([] : List (Op V N₁ N₂ I₁ I₂ C₁ C₂)) = fun _ _ => False := by
        funext a b
        simp [HandedOut]
      refine ⟨fun p hp => absurd hp List.not_mem_nil, fun a b => ?_⟩
      rw [Shared, hnone]
      exact eqvGen_empty (fun a b hab => by simpa [objectOf, Store.empty] using hab) a b
  | append_singleton ops op ih =>
      rw [run_append] at h
      obtain ⟨s₁, hs₁, hstep⟩ := Option.bind_eq_some_iff.mp h
      obtain ⟨hpointed, hkernel⟩ := ih hs₁
      refine ⟨step_pointed hpointed hstep, ?_⟩
      have hedges : ∀ a b, HandedOut A₁ A₂ (ops ++ [op]) a b ↔ HandedOut A₁ A₂ ops a b ∨
          handsOut A₁ A₂ s₁ op = some a ∧ b = s₁.states.length := fun a b => handedOut_append hs₁
      -- a call that hands nothing out adds no edge
      have hkeep : handsOut A₁ A₂ s₁ op = none →
          Shared A₁ A₂ (ops ++ [op]) = Shared A₁ A₂ ops := by
        intro hnone
        rw [Shared, Shared]
        refine congrArg EqvGen (funext fun a => funext fun b => propext ?_)
        rw [hedges, hnone]
        simp
      rcases step_cases hstep with ⟨i, u, p, rfl, hp, rfl⟩ | ⟨i, p, -, hhands, hp, rfl⟩ |
        ⟨o, -, hhands, rfl⟩
      · intro a b
        rw [hkeep rfl, ← hkernel]
        simp [objectOf]
      · -- the new state joins the class of the one that is handed out
        have hnew : HandedOut A₁ A₂ (ops ++ [op]) i s₁.states.length :=
          (hedges _ _).mpr (Or.inr ⟨hhands, rfl⟩)
        intro a b
        rw [hpointed.objectOf_append hp, hpointed.objectOf_append hp]
        refine eqvGen_merge hkernel (fun a b hab => (hedges a b).mpr (Or.inl hab))
          ((EqvGen.rel _ _ hnew).symm _ _) (fun a b hab => ?_) a b
        refine ((hedges a b).mp hab).imp_right fun ⟨ha, hb⟩ => ?_
        obtain rfl : i = a := Option.some.inj (hhands.symm.trans ha)
        rw [hb, merge_self]
        unfold merge
        split <;> rfl
      · -- the new state has an object of its own
        intro a b
        rw [hkeep hhands, ← hkernel]
        rcases hpointed.objectOf_fresh o a with ⟨_, _, _⟩ | ⟨_, _, _⟩ | ⟨_, _, _⟩ <;>
          rcases hpointed.objectOf_fresh o b with ⟨_, _, _⟩ | ⟨_, _, _⟩ | ⟨_, _, _⟩ <;> omega

/-- **The states of a run are independent exactly as long as no update in place changes what a
state describes that was handed out to another one.** -/
theorem runs_independent_iff (A₁ : Apron O₁ V N₁ I₁ C₁) (A₂ : Apron O₂ V N₂ I₂ C₂)
    (γ : O₁ × O₂ → Set Val) (ops : List (Op V N₁ N₂ I₁ I₂ C₁ C₂)) :
    (∀ pre op post s, ops = pre ++ op :: post → run A₁ A₂ pre = some s →
        Independent A₁ A₂ γ s op) ↔
      ∀ pre i u post s o, ops = pre ++ .update i u :: post → run A₁ A₂ pre = some s →
        value s i = some o →
        γ (u.apply A₁ A₂ o) = γ o ∨
          ∀ j < s.states.length, j ≠ i → ¬ Shared A₁ A₂ pre i j := by
  constructor
  · intro h pre i u post s o hops hs ho
    obtain ⟨hpointed, hkernel⟩ := shared_iff hs
    by_contra hcon
    push Not at hcon
    obtain ⟨hchange, j, hj, hne, hshared⟩ := hcon
    obtain ⟨p, hp, -⟩ := Option.bind_eq_some_iff.mp ho
    have hsame : objectOf s i = objectOf s j := (hkernel i j).mpr hshared
    have hstep : step A₁ A₂ s (.update i u) =
        some { s with objects := s.objects.modify p (u.apply A₁ A₂) } := by
      rw [step, hp, Option.map_some]
    have hj' := h pre (.update i u) post s hops hs _ hstep j hj fun v hv =>
      hne (Op.update.inj hv).1.symm
    -- the other state is the same object, so it describes what the update makes of it
    have hvalue : value s j = some o := by
      rw [← ho, value, value, List.getElem?_eq_getElem hj, hp, Option.bind_some, Option.bind_some]
      rw [objectOf_of_getElem? hp, objectOf_of_getElem? (List.getElem?_eq_getElem hj)] at hsame
      rw [hsame]
    rw [describes, describes, step_update hstep hj hsame, ho, hvalue] at hj'
    exact hchange (Option.some.inj hj')
  · intro h pre op post s hops hs s' hstep j hj hother
    obtain ⟨hpointed, hkernel⟩ := shared_iff hs
    by_cases hsame : ∃ i u, op = .update i u ∧ objectOf s i = objectOf s j
    · obtain ⟨i, u, rfl, hsame⟩ := hsame
      have hne : j ≠ i := fun heq => hother u (heq ▸ rfl)
      obtain ⟨p, hp, -⟩ := Option.map_eq_some_iff.mp hstep
      have hp' : p < s.objects.length := hpointed p (List.mem_of_getElem? hp)
      have ho : value s i = some s.objects[p] := by
        rw [value_eq hp, List.getElem?_eq_getElem hp']
      have hvalue : value s j = some s.objects[p] := by
        rw [objectOf_of_getElem? hp, objectOf_of_getElem? (List.getElem?_eq_getElem hj)] at hsame
        rw [value_eq (List.getElem?_eq_getElem hj), ← hsame, List.getElem?_eq_getElem hp']
      rcases h pre i u post s _ hops hs ho with hsteady | halone
      · rw [describes, describes, step_update hstep hj hsame, ho, hvalue]
        exact congrArg some hsteady
      · exact absurd ((hkernel i j).mp hsame) (halone j hj hne)
    · push Not at hsame
      rw [describes, describes, step_frame hpointed hstep hj hsame]

/-- Octagons that are top or bottom. -/
def flat : Apron Bool Unit Unit Unit Unit where
  top := fun _ => false
  bottom := fun _ => true
  caster := fun _ => ()
  isBottom := fun o => o
  setTop := fun _ => false
  setBottom := fun _ => true
  join := fun a b => a && b
  meet := fun a b => a || b
  widen := fun a b => a && b
  assign := fun _ _ o => o
  assignInterval := fun _ _ o => o
  applyTo := fun _ _ _ _ o => o
  addCondition := fun _ _ _ o => o

/-- A state is cloned, the clone is set to bottom, and the state it was cloned from is bottom. -/
theorem not_independent_clone :
    ¬ ∀ (γ : Bool × Bool → Set Unit) (ops : List (Op Unit Unit Unit Unit Unit Unit Unit)) pre op post
      s, ops = pre ++ op :: post → run flat flat pre = some s → Independent flat flat γ s op := by
  intro h
  have hdescribes := h (fun o => {_v | o = (false, false)})
    [.top () (), .clone 0, .update 1 .setBottom] [.top () (), .clone 0] (.update 1 .setBottom) [] _
    rfl rfl _ rfl 0 (by decide) (by simp)
  have hmem : (() : Unit) ∈ {_v : Unit | (true, true) = (false, false)} := by
    have hsets : {_v : Unit | (true, true) = (false, false)} =
        {_v : Unit | (false, false) = (false, false)} := Option.some.inj hdescribes
    rw [hsets]
    rfl
  exact absurd hmem (by simp)

end DoubleOctagon

end Borealis
