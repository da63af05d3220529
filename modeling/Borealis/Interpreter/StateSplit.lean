import Borealis.Interpreter.IntervalLattice
import Borealis.PredicateAnalysis.DefaultPredicateAnalysis

/-!
# Splitting a state on a condition

`DomainStorage::split` of `Interpreter/IR/DomainStorage.cpp` for integer comparisons and the
interval domain.

A storage holds pointers to its domains, and copying a storage copies the pointers.  So the two
parts of a split and the state that is split share one numeric domain, and `addConstraint`
updates the environment of that domain in place: the constraint of the true part and then that of
the false part.

## Strategy

`split` is computed on a heap of numeric environments.  All three states end with the environment
that both constraints have cut (`split_eq`), so the split is sound exactly when both cuts together
take no value from a variable and give none to it.  Which values an operand keeps is said by
`refine`, on the domains the operands have before the split.
-/

namespace Borealis

/-- `makeNot`. -/
def ConditionType.makeNot : ConditionType → ConditionType
  | .eq => .neq
  | .neq => .eq
  | .gt => .le
  | .ge => .lt
  | .lt => .ge
  | .le => .gt
  | .ugt => .ule
  | .uge => .ult
  | .ult => .uge
  | .ule => .ugt
  | .true => .false
  | .false => .true
  | .unknown => .unknown

namespace StateSplit

variable {V : Type} [DecidableEq V] {width : Nat}

/-- The numeric environment: the intervals of the integer variables of each width.  Variables of
width one are Booleans and not among them. -/
abbrev IntEnv (V : Type) := (width : Nat) → V → Option (DoubleInterval width)

/-- The numeric domains behind the pointers. -/
abbrev Heap (V : Type) := Nat → IntEnv V

/-- `DomainStorage`, with the Boolean variables and the pointer to the numeric domain. -/
structure DomainStorage (V : Type) where
  bools : V → Option (Interval.Ptr false 1)
  ints : Nat

/-- An operand of a comparison. -/
inductive Operand (V : Type) (width : Nat) where
  | var (x : V)
  | constant (n : BitVec width)

/-- An `icmp` instruction: its result, a Boolean variable, and its operands. -/
structure Comparison (V : Type) where
  result : V
  predicate : CmpPredicate
  width : Nat
  lhv : Operand V width
  rhv : Operand V width

/-- `getInteger` of a constant: its low word, in both readings. -/
def getInteger (n : BitVec width) : DoubleInterval width :=
  let number := BitVec.ofNat width (n.toNat % 2 ^ 64)
  DoubleInterval.interval (Interval.interval (.finite ⟨number⟩) (.finite ⟨number⟩))
    (Interval.interval (.finite ⟨number⟩) (.finite ⟨number⟩))

/-- `IntervalDomainImpl::get`. -/
def get (env : IntEnv V) : Operand V width → Option (DoubleInterval width)
  | .var x => env width x
  | .constant n => some (getInteger n)

/-- `IntervalDomain::assign`.  `get` answers for constants without the environment, so that an entry
for a constant is never read. -/
def assign (env : IntEnv V) : Operand V width → DoubleInterval width → IntEnv V
  | .var x, domain => Function.update env width (Function.update (env width) x (some domain))
  | .constant _, _ => env

/-- What a constraint makes of the domains of its operands. -/
def cut (op : ConditionType) (lhv rhv : DoubleInterval width) :
    DoubleInterval width × DoubleInterval width :=
  match op with
  | .eq => ((lhv.splitByEq rhv).1, (rhv.splitByEq lhv).1)
  | .neq => ((lhv.splitByEq rhv).2, (rhv.splitByEq lhv).2)
  | .gt | .ge | .ugt | .uge => ((lhv.splitByLess rhv).2, (rhv.splitByLess lhv).1)
  | .lt | .le | .ult | .ule => ((lhv.splitByLess rhv).1, (rhv.splitByLess lhv).2)
  | .true | .false | .unknown => (lhv, rhv)

/-- `addConstraint`, on the environment behind the pointer of a storage.  An operand the
environment does not know is a null pointer. -/
def addConstraint (heap : Heap V) (s : DomainStorage V) (op : ConditionType)
    (x y : Operand V width) : Option (Heap V) := do
  let lhv ← get (heap s.ints) x
  let rhv ← get (heap s.ints) y
  let env := assign (heap s.ints) x (cut op lhv rhv).1
  let env' := assign env y (cut op lhv rhv).2
  return Function.update heap s.ints env'

/-- `split`: the heap afterwards, the true part and the false part. -/
def split (heap : Heap V) (s : DomainStorage V) (c : Comparison V) :
    Option (Heap V × DomainStorage V × DomainStorage V) := do
  let truePart := s
  let falsePart := s
  let condDomain ← s.bools c.result
  if condDomain.isTop || condDomain.isBottom then return (heap, truePart, falsePart)
  else
    let cop := conditionType c.predicate
    let ncop := cop.makeNot
    let heap ← addConstraint heap truePart cop c.lhv c.rhv
    let heap ← addConstraint heap falsePart ncop c.lhv c.rhv
    return (heap, truePart, falsePart)

/-! ## What a state describes -/

/-- The values of the variables that have one. -/
structure Valuation (V : Type) where
  ints : (width : Nat) → V → Option (BitVec width)
  bools : V → Option (BitVec 1)

/-- A state describes the valuations whose values lie in the intervals of the state; a variable
without an interval has no value yet. -/
def Describes (heap : Heap V) (s : DomainStorage V) (ρ : Valuation V) : Prop :=
  (∀ width x v, ρ.ints width x = some v → ∃ d, heap s.ints width x = some d ∧ v ∈ d) ∧
    ∀ x b, ρ.bools x = some b → ∃ d, s.bools x = some d ∧ (⟨b⟩ : BitInt false 1) ∈ d

/-- The value of an operand. -/
def Operand.value (ρ : Valuation V) : Operand V width → Option (BitVec width)
  | var x => ρ.ints width x
  | constant n => some n

/-- The value of a comparison whose operands have values. -/
def Comparison.value (ρ : Valuation V) (c : Comparison V) : Option Bool := do
  let a ← c.lhv.value ρ
  let b ← c.rhv.value ρ
  return c.predicate.value a b

/-- The split is sound and independent: the parts describe the valuations they should, and the
state describes what it did. -/
def SplitSound (heap : Heap V) (s : DomainStorage V) (c : Comparison V) : Prop :=
  ∃ heap' truePart falsePart, split heap s c = some (heap', truePart, falsePart) ∧
    (∀ ρ, Describes heap s ρ → c.value ρ = some true → Describes heap' truePart ρ) ∧
    (∀ ρ, Describes heap s ρ → c.value ρ = some false → Describes heap' falsePart ρ) ∧
    ∀ ρ, Describes heap' s ρ ↔ Describes heap s ρ

/-- The domain that `get` gives for an operand after an assignment: that of a constant stays. -/
def Operand.assigned (before after : DoubleInterval width) :
    Operand V width → DoubleInterval width
  | var _ => after
  | constant _ => before

/-- What a constraint and then its negation make of the domains of two operands. -/
def refine (op : ConditionType) (x y : Operand V width) (lhv rhv : DoubleInterval width) :
    DoubleInterval width × DoubleInterval width :=
  cut op.makeNot (x.assigned lhv (cut op lhv rhv).1) (y.assigned rhv (cut op lhv rhv).2)

/-- An operand keeps its values: it is a constant, or its domain after both cuts has the members
it had. -/
def Keeps (before after : DoubleInterval width) : Operand V width → Prop
  | .var _ => ∀ v, v ∈ after ↔ v ∈ before
  | .constant _ => True

/-- When the split does what it should: the domain of the condition says nothing, or both operands
are known and keep their values. -/
def Settled (heap : Heap V) (s : DomainStorage V) (c : Comparison V) : Prop :=
  ∃ condDomain, s.bools c.result = some condDomain ∧
    (condDomain.isTop = true ∨ condDomain.isBottom = true ∨
      ∃ lhv rhv, get (heap s.ints) c.lhv = some lhv ∧ get (heap s.ints) c.rhv = some rhv ∧
        Keeps lhv (refine (conditionType c.predicate) c.lhv c.rhv lhv rhv).1 c.lhv ∧
        Keeps rhv (refine (conditionType c.predicate) c.lhv c.rhv lhv rhv).2 c.rhv)

/-! ## The environment after a split -/

omit [DecidableEq V] in
theorem splitByEq_self (a : DoubleInterval width) : a.splitByEq a = (a, a) := by
  have hcomponent : ∀ {sign : Bool} (i : Interval.Ptr sign width),
      Interval.splitByEq i i = (i, i) := by
    intro sign i
    unfold Interval.splitByEq
    rw [Interval.clone_eq]
    split
    · rfl
    · split <;> rfl
  unfold DoubleInterval.splitByEq
  simp only [hcomponent, DoubleInterval.interval_components]
  split <;> rfl

theorem splitByLess_self (a : DoubleInterval width) : a.splitByLess a = (a, a) := by
  have hcomponent : ∀ {sign : Bool} (i : Interval.Ptr sign width),
      Interval.splitByLess i i = (i, i) := by
    intro sign i
    refine Interval.splitByLess_of_not_narrows fun hnarrows => ?_
    have hleq := hnarrows.2.2.1
    rw [Interval.leq_refl] at hleq
    exact absurd hleq (by simp)
  unfold DoubleInterval.splitByLess
  simp only [hcomponent, DoubleInterval.interval_components]
  split <;> rfl

/-- A variable compared with itself keeps its domain. -/
theorem cut_self (op : ConditionType) (a : DoubleInterval width) : cut op a a = (a, a) := by
  cases op <;> simp only [cut, splitByEq_self, splitByLess_self]

/-- The environment after a constraint. -/
def constrain (env : IntEnv V) (op : ConditionType) (x y : Operand V width)
    (lhv rhv : DoubleInterval width) : IntEnv V :=
  assign (assign env x (cut op lhv rhv).1) y (cut op lhv rhv).2

theorem assign_var_self (env : IntEnv V) (x : V) (domain : DoubleInterval width) :
    assign env (.var x) domain width x = some domain := by
  simp [assign]

theorem assign_var_ne (env : IntEnv V) {x y : V} (domain : DoubleInterval width) {width' : Nat}
    (hne : ¬ (width' = width ∧ y = x)) :
    assign env (.var x) domain width' y = env width' y := by
  by_cases hwidth : width' = width
  · subst hwidth
    have hy : y ≠ x := fun hy => hne ⟨rfl, hy⟩
    simp [assign, hy]
  · simp [assign, Function.update_of_ne hwidth]

section

variable {env : IntEnv V} (op : ConditionType) {x y : Operand V width}
  {lhv rhv : DoubleInterval width}

/-- The second operand has what the constraint made of its domain. -/
theorem get_constrain_right (x : Operand V width) (lhv : DoubleInterval width)
    (hy : get env y = some rhv) :
    get (constrain env op x y lhv rhv) y = some (y.assigned rhv (cut op lhv rhv).2) := by
  cases y with
  | var b => exact assign_var_self _ b _
  | constant n => exact hy

/-- The first operand has what the constraint made of its domain, also when it is the second
operand. -/
theorem get_constrain_left (hx : get env x = some lhv) (hy : get env y = some rhv) :
    get (constrain env op x y lhv rhv) x = some (x.assigned lhv (cut op lhv rhv).1) := by
  cases x with
  | constant n => exact hx
  | var a =>
      cases y with
      | constant n => exact assign_var_self _ a _
      | var b =>
          by_cases hab : a = b
          · subst hab
            obtain rfl : lhv = rhv := Option.some.inj (hx.symm.trans hy)
            rw [get_constrain_right op _ _ hy]
            simp [Operand.assigned, cut_self]
          · change assign (assign env (.var a) _) (.var b) _ width a = _
            rw [assign_var_ne _ _ (fun h => hab h.2), assign_var_self]
            rfl

theorem constrain_other {width' : Nat} {z : V}
    (hx : ∀ a, x = .var a → ¬ (width' = width ∧ z = a))
    (hy : ∀ b, y = .var b → ¬ (width' = width ∧ z = b)) :
    constrain env op x y lhv rhv width' z = env width' z := by
  have hassign : ∀ (env : IntEnv V) (o : Operand V width) (d : DoubleInterval width),
      (∀ a, o = .var a → ¬ (width' = width ∧ z = a)) → assign env o d width' z = env width' z := by
    intro env o d ho
    cases o with
    | var a => exact assign_var_ne env d (ho a rfl)
    | constant n => rfl
  rw [constrain, hassign _ _ _ hy, hassign _ _ _ hx]

end

theorem addConstraint_eq {heap : Heap V} {s : DomainStorage V} (op : ConditionType)
    {x y : Operand V width} {lhv rhv : DoubleInterval width}
    (hx : get (heap s.ints) x = some lhv) (hy : get (heap s.ints) y = some rhv) :
    addConstraint heap s op x y =
      some (Function.update heap s.ints (constrain (heap s.ints) op x y lhv rhv)) := by
  simp [addConstraint, hx, hy, constrain]

/-- The numeric environment that all three states have after a split. -/
def splitEnv (env : IntEnv V) (op : ConditionType) (x y : Operand V width)
    (lhv rhv : DoubleInterval width) : IntEnv V :=
  constrain (constrain env op x y lhv rhv) op.makeNot x y
    (x.assigned lhv (cut op lhv rhv).1) (y.assigned rhv (cut op lhv rhv).2)

/-- **The true part, the false part and the state that is split end with one environment.** -/
theorem split_eq {heap : Heap V} {s : DomainStorage V} {c : Comparison V}
    {condDomain : Interval.Ptr false 1} {lhv rhv : DoubleInterval c.width}
    (hcond : s.bools c.result = some condDomain) (htop : condDomain.isTop = false)
    (hbottom : condDomain.isBottom = false) (hx : get (heap s.ints) c.lhv = some lhv)
    (hy : get (heap s.ints) c.rhv = some rhv) :
    split heap s c = some (Function.update heap s.ints
      (splitEnv (heap s.ints) (conditionType c.predicate) c.lhv c.rhv lhv rhv), s, s) := by
  have hfirst := addConstraint_eq (conditionType c.predicate) hx hy
  have hx' : get (Function.update heap s.ints (constrain (heap s.ints)
      (conditionType c.predicate) c.lhv c.rhv lhv rhv) s.ints) c.lhv =
        some (c.lhv.assigned lhv (cut (conditionType c.predicate) lhv rhv).1) := by
    rw [Function.update_self]
    exact get_constrain_left _ hx hy
  have hy' : get (Function.update heap s.ints (constrain (heap s.ints)
      (conditionType c.predicate) c.lhv c.rhv lhv rhv) s.ints) c.rhv =
        some (c.rhv.assigned rhv (cut (conditionType c.predicate) lhv rhv).2) := by
    rw [Function.update_self]
    exact get_constrain_right _ _ _ hy
  have hsecond := addConstraint_eq (conditionType c.predicate).makeNot hx' hy'
  rw [Function.update_idem, Function.update_self] at hsecond
  simp [split, hcond, htop, hbottom, hfirst, hsecond, splitEnv]

/-! ## When the environment describes the same -/

/-- Two entries of an environment admit the same values. -/
def SameMembers (a b : Option (DoubleInterval width)) : Prop :=
  ∀ v, (∃ d, a = some d ∧ v ∈ d) ↔ ∃ d, b = some d ∧ v ∈ d

/-- The valuation in which one variable has a value. -/
def single (width : Nat) (x : V) (v : BitVec width) : Valuation V where
  ints := Function.update (fun _ _ => none) width (Function.update (fun _ => none) x (some v))
  bools := fun _ => none

theorem describes_single_iff {heap : Heap V} {s : DomainStorage V} {x : V} {v : BitVec width} :
    Describes heap s (single width x v) ↔ ∃ d, heap s.ints width x = some d ∧ v ∈ d := by
  constructor
  · intro h
    exact h.1 width x v (by simp [single])
  · intro h
    refine ⟨fun width' x' v' hv' => ?_, fun x' b hb => absurd hb (by simp [single])⟩
    by_cases hwidth : width' = width
    · subst hwidth
      by_cases hx : x' = x
      · subst hx
        obtain rfl : v = v' := by simpa [single] using hv'
        exact h
      · simp [single, hx] at hv'
    · simp [single, Function.update_of_ne hwidth] at hv'

theorem describes_iff_sameMembers {heap heap' : Heap V} {s : DomainStorage V} :
    (∀ ρ, Describes heap' s ρ ↔ Describes heap s ρ) ↔
      ∀ width x, SameMembers (heap' s.ints width x) (heap s.ints width x) := by
  constructor
  · intro h width x v
    have hsingle := h (single width x v)
    rwa [describes_single_iff, describes_single_iff] at hsingle
  · intro h ρ
    refine and_congr_left fun _ => ?_
    exact forall_congr' fun width => forall_congr' fun x => forall_congr' fun v =>
      imp_congr_right fun _ => h width x v

theorem sameMembers_some_iff {a b : DoubleInterval width} :
    SameMembers (some a) (some b) ↔ ∀ v, v ∈ a ↔ v ∈ b := by
  simp [SameMembers]

omit [DecidableEq V] in
theorem assigned_assigned (o : Operand V width) (a b c : DoubleInterval width) :
    o.assigned (o.assigned a b) c = o.assigned a c := by
  cases o <;> rfl

/-- A split changes the entries of the operands only. -/
theorem splitEnv_sameMembers_iff {env : IntEnv V} {op : ConditionType} {x y : Operand V width}
    {lhv rhv : DoubleInterval width} (hx : get env x = some lhv) (hy : get env y = some rhv) :
    (∀ width' z, SameMembers (splitEnv env op x y lhv rhv width' z) (env width' z)) ↔
      Keeps lhv (refine op x y lhv rhv).1 x ∧ Keeps rhv (refine op x y lhv rhv).2 y := by
  have hx' := get_constrain_left op hx hy
  have hy' := get_constrain_right op x lhv hy
  have hleft := get_constrain_left op.makeNot hx' hy'
  have hright := get_constrain_right op.makeNot x (x.assigned lhv (cut op lhv rhv).1) hy'
  rw [assigned_assigned] at hleft hright
  have hentry : ∀ (o : Operand V width) {before after : DoubleInterval width},
      get env o = some before →
      get (splitEnv env op x y lhv rhv) o = some (o.assigned before after) →
      ((∀ z, o = .var z → SameMembers (splitEnv env op x y lhv rhv width z) (env width z)) ↔
        Keeps before after o) := by
    intro o before after hbefore hafter
    cases o with
    | constant n => simp [Keeps]
    | var z =>
        have henv : env width z = some before := hbefore
        have hsplit : splitEnv env op x y lhv rhv width z = some after := hafter
        simp only [Operand.var.injEq, forall_eq', henv, hsplit, sameMembers_some_iff, Keeps]
  refine Iff.trans ?_ (and_congr (hentry x hx hleft) (hentry y hy hright))
  constructor
  · intro h
    exact ⟨fun z _ => h width z, fun z _ => h width z⟩
  · rintro ⟨hkeepx, hkeepy⟩ width' z
    by_cases hoperand : width' = width ∧ (x = .var z ∨ y = .var z)
    · obtain ⟨rfl, hz | hz⟩ := hoperand
      · exact hkeepx z hz
      · exact hkeepy z hz
    · have hother : ∀ (o : Operand V width), o = x ∨ o = y → ∀ a, o = .var a →
          ¬ (width' = width ∧ z = a) := by
        rintro o ho a rfl ⟨hwidth, rfl⟩
        exact hoperand ⟨hwidth, ho.imp Eq.symm Eq.symm⟩
      rw [splitEnv, constrain_other _ (hother x (.inl rfl)) (hother y (.inr rfl)),
        constrain_other _ (hother x (.inl rfl)) (hother y (.inr rfl))]
      exact fun _ => Iff.rfl

/-! ## When the split is sound -/

/-- The split is sound when all three states describe what the state did. -/
theorem splitSound_iff_of_split {heap heap' : Heap V} {s : DomainStorage V} {c : Comparison V}
    (hsplit : split heap s c = some (heap', s, s)) :
    SplitSound heap s c ↔ ∀ ρ, Describes heap' s ρ ↔ Describes heap s ρ := by
  constructor
  · rintro ⟨heap₂, truePart, falsePart, heq, -, -, hsame⟩
    obtain rfl : heap' = heap₂ := (Prod.mk.inj (Option.some.inj (hsplit.symm.trans heq))).1
    exact hsame
  · intro hsame
    exact ⟨heap', s, s, hsplit, fun ρ hρ _ => (hsame ρ).mpr hρ, fun ρ hρ _ => (hsame ρ).mpr hρ,
      hsame⟩

/-- `x` from 0 to 3, compared with 5 for inequality, where the condition is known to hold. -/
def unequalFive : Comparison Nat :=
  { result := 1, predicate := .ne, width := 8, lhv := .var 0, rhv := .constant 5 }

/-- The numeric environment with `x` from 0 to 3. -/
def smallHeap : Heap Nat := fun _ => assign (fun _ _ => none) (.var 0 : Operand Nat 8)
  (DoubleInterval.interval (Interval.interval (.finite ⟨0⟩) (.finite ⟨3⟩))
    (Interval.interval (.finite ⟨0⟩) (.finite ⟨3⟩)))

/-- The state over this environment in which the condition holds. -/
def smallState : DomainStorage Nat :=
  { bools := fun _ => some (Interval.interval (.finite ⟨1⟩) (.finite ⟨1⟩)), ints := 0 }

end StateSplit

end Borealis
