import Borealis.State.TermSimplifier
import Borealis.Term.Equality

/-!
# Constant propagation

`ConstantPropagator` over terms without floating constants.  Both operands of an operator have been
transformed when it is looked at; constants are folded with the operators of `int64_t` and `bool`,
whatever the type of the term is, and a folded number is a constant of unknown type.

Divisions, remainders, shifts to the right and comparisons are those of signed 64-bit numbers, so
that they see the bits above the width of a term, and a division by a constant zero is carried out.

## Strategy

A folded constant has no width of its own.  `annotated` is the same transformation with the types of
the original put back, and `sameTree_transform` says that nothing else differs.  The value of an
annotated term is compared with that of the original node by node: a node is preserved just in case
the 64-bit operation agrees with the machine there, given that its subterms are preserved.
-/

namespace Borealis

/-- The constants, variables and operators over integers and booleans. -/
def TermClass.isArithmetic : TermClass → Bool
  | .value _ | .argument _ _ | .opaqueIntConstant _ | .opaqueBoolConstant _ => true
  | .unary _ | .binary _ | .cmp _ | .ternary => true
  | _ => false

namespace ConstantPropagator

/-! ## Folding -/

/-- The values of the constants that are folded. -/
inductive Constant where
  | bool (b : Bool)
  | int (v : BitVec 64)
deriving DecidableEq

namespace Constant

/-- The conversion to `int64_t`. -/
def toInt64 : Constant → BitVec 64
  | bool b => if b then 1 else 0
  | int v => v

end Constant

/-- `getValue` of a constant. -/
def getValue : TermClass → Option Constant
  | .opaqueBoolConstant b => some (.bool b)
  | .opaqueIntConstant v => some (.int (BitVec.ofInt 64 v))
  | _ => none

/-- `propagate` of two numbers.  There is no result where the behaviour is undefined, which is a
division by zero or one that overflows, and a shift by a negative count or by 64 and more. -/
def propagateInt (op : ArithType) (lhv rhv : BitVec 64) : Option (BitVec 64) :=
  match op with
  | .add => some (lhv + rhv)
  | .band => some (lhv &&& rhv)
  | .bor => some (lhv ||| rhv)
  | .div =>
    if rhv = 0 ∨ lhv = BitVec.intMin 64 ∧ rhv = BitVec.allOnes 64 then none
    else some (lhv.sdiv rhv)
  | .land => some (if lhv ≠ 0 ∧ rhv ≠ 0 then 1 else 0)
  | .lor => some (if lhv ≠ 0 ∨ rhv ≠ 0 then 1 else 0)
  | .shl => if rhv.toNat < 64 then some (lhv <<< rhv) else none
  | .mul => some (lhv * rhv)
  | .rem =>
    if rhv = 0 ∨ lhv = BitVec.intMin 64 ∧ rhv = BitVec.allOnes 64 then none
    else some (lhv.srem rhv)
  -- should be allowed only for unsigned types
  | .ashr | .lshr => if rhv.toNat < 64 then some (lhv.sshiftRight' rhv) else none
  | .sub => some (lhv - rhv)
  | .xor => some (lhv ^^^ rhv)
  | .implies => some (if lhv ≠ 0 then rhv else 1)

/-- `propagate` of two booleans, which are promoted to `int`; the result is converted back. -/
def propagateBool (op : ArithType) (lhv rhv : Bool) : Option Bool :=
  match op with
  | .add | .bor | .lor => some (lhv || rhv)
  | .band | .land | .mul => some (lhv && rhv)
  | .sub | .xor => some (lhv ^^ rhv)
  | .div => if rhv then some lhv else none
  | .rem => if rhv then some false else none
  | .shl => some lhv
  | .ashr | .lshr => some (lhv && !rhv)
  | .implies => some (!lhv || rhv)

/-- `propagateTerm` of a binary opcode. -/
def propagateArith (op : ArithType) : Constant → Constant → Option Constant
  | .bool lhv, .bool rhv => (propagateBool op lhv rhv).map .bool
  | lhv, rhv => (propagateInt op lhv.toInt64 rhv.toInt64).map .int

/-- `propagateTerm` of a comparison. -/
def propagateCmp (op : ConditionType) (lhv rhv : Constant) : Option Constant :=
  let lhv := lhv.toInt64
  let rhv := rhv.toInt64
  match op with
  | .eq => some (.bool (decide (lhv = rhv)))
  | .neq => some (.bool (decide (lhv ≠ rhv)))
  | .gt | .ugt => some (.bool (rhv.slt lhv))
  | .ge | .uge => some (.bool (rhv.sle lhv))
  | .lt | .ult => some (.bool (lhv.slt rhv))
  | .le | .ule => some (.bool (lhv.sle rhv))
  | .true => some (.bool true)
  | .false => some (.bool false)
  -- Unknown comparison operation
  | .unknown => none

/-- `propagateTerm` of a unary opcode.  `~` promotes a boolean to `int`, which never gives zero. -/
def propagateUnary : UnaryArithType → Constant → Constant
  | .not, .bool b => .bool !b
  | .bnot, .bool _ => .bool true
  | .neg, .bool b => .bool b
  | .not, .int v => .int (if v = 0 then 1 else 0)
  | .bnot, .int v => .int (~~~v)
  | .neg, .int v => .int (-v)

/-- What is done with a term whose subterms have been transformed. -/
inductive Step where
  | folded (c : Constant)
  | chosen (t : Term)
  | kept

/-- `transformUnaryTerm`, `transformBinaryTerm`, `transformCmpTerm` and `transformTernaryTerm`. -/
def step (cls : TermClass) (subterms : List Term) : Option Step :=
  match cls, subterms with
  | .unary op, [rhv] =>
    match getValue rhv.cls with
    | some value => some (.folded (propagateUnary op value))
    | none => some .kept
  | .binary op, [lhv, rhv] =>
    match getValue lhv.cls, getValue rhv.cls with
    | some left, some right => (propagateArith op left right).map .folded
    | _, _ => some .kept
  | .cmp op, [lhv, rhv] =>
    match getValue lhv.cls, getValue rhv.cls with
    | some left, some right => (propagateCmp op left right).map .folded
    | _, _ => some .kept
  | .ternary, [cnd, tru, fls] =>
    match getValue cnd.cls with
    | some (.bool b) => some (.chosen (if b then tru else fls))
    | _ => some .kept
  | _, _ => some .kept

section Transform

-- the constant term of a folded value, and the term that is kept with new subterms
variable (constant : Ty → Constant → Term) (rebuild : Term → List Term → Term)

/-- The term that a step leaves of a term with these new subterms. -/
def Step.term (t : Term) (rs : List Term) : Step → Term
  | .folded c => constant t.getType c
  | .chosen r => r
  | .kept => rebuild t rs

mutual
/-- `transform`: the subterms come first. -/
def transformWith : Term → Option Term
  | .mk obj cls type name subterms =>
    (transformAllWith subterms).bind fun rs =>
      (step cls rs).map (Step.term constant rebuild (.mk obj cls type name subterms) rs)

/-- The subterms, one after the other. -/
def transformAllWith : List Term → Option (List Term)
  | [] => some []
  | t :: ts => (transformWith t).bind fun r => (transformAllWith ts).map fun rs => r :: rs
end

end Transform

/-- `getOpaqueConstantTerm`. -/
def getOpaqueConstantTerm : Constant → Term
  | .bool b => .mk 0 (.opaqueBoolConstant b) .bool (toString b) []
  | .int v => .mk 0 (.opaqueIntConstant v.toInt) .unknownType (toString v.toInt) []

/-- `ConstantPropagator::transform`. -/
def transform (FN : TermFactory) : Term → Option Term :=
  transformWith (fun _ c => getOpaqueConstantTerm c) (Simplifier.accepted FN)

/-- A folded constant with the type of the term it stands for. -/
def typedConstant (type : Ty) : Constant → Term
  | .bool b => .mk 0 (.opaqueBoolConstant b) type (toString b) []
  | .int v => .mk 0 (.opaqueIntConstant v.toInt) type (toString v.toInt) []

/-- A term with other subterms and its own type. -/
def withSubterms : Term → List Term → Term
  | .mk obj cls type name _, rs => .mk obj cls type name rs

/-- The transformed term with the types of the original. -/
def annotated : Term → Option Term := transformWith typedConstant withSubterms

/-! ## Types put back -/

mutual
/-- Two terms that differ in types at most, and in the names that compound terms make up. -/
def SameTree : Term → Term → Prop
  | .mk _ cls _ name subterms, .mk _ cls' _ name' subterms' =>
    cls = cls' ∧ (subterms = [] → name = name') ∧ SameTrees subterms subterms'

/-- The same for lists of subterms. -/
def SameTrees : List Term → List Term → Prop
  | [], [] => True
  | t :: ts, u :: us => SameTree t u ∧ SameTrees ts us
  | _, _ => False
end

theorem SameTree.cls_eq {t u : Term} (h : SameTree t u) : t.cls = u.cls := by
  obtain ⟨obj, cls, type, name, subterms⟩ := t
  obtain ⟨obj', cls', type', name', subterms'⟩ := u
  exact h.1

/-- The same step is done with the same terms. -/
inductive SameStep : Step → Step → Prop
  | folded (c : Constant) : SameStep (.folded c) (.folded c)
  | chosen {t u : Term} (h : SameTree t u) : SameStep (.chosen t) (.chosen u)
  | kept : SameStep .kept .kept

theorem sameStep_step (cls : TermClass) {ts us : List Term} (h : SameTrees ts us) :
    Option.Rel SameStep (step cls ts) (step cls us) := by
  have hkept : Option.Rel SameStep (some Step.kept) (some Step.kept) := .some .kept
  have hfolded : ∀ c : Option Constant,
      Option.Rel SameStep (c.map Step.folded) (c.map Step.folded) := fun c => by
    cases c with
    | none => exact .none
    | some c => exact .some (.folded c)
  rcases ts with - | ⟨t₁, - | ⟨t₂, - | ⟨t₃, - | ⟨t₄, ts⟩⟩⟩⟩ <;>
    rcases us with - | ⟨u₁, - | ⟨u₂, - | ⟨u₃, - | ⟨u₄, us⟩⟩⟩⟩ <;>
    simp only [SameTrees, and_false, and_true] at h
  · cases cls <;> exact hkept
  · -- one subterm
    cases cls <;> try exact hkept
    simp only [step, h.cls_eq]
    cases getValue u₁.cls with
    | none => exact hkept
    | some value => exact .some (.folded _)
  · -- two subterms
    cases cls <;> try exact hkept
    all_goals
      simp only [step, h.1.cls_eq, h.2.cls_eq]
      rcases getValue u₁.cls with - | left <;> rcases getValue u₂.cls with - | right <;>
        first | exact hkept | exact hfolded _
  · -- three subterms
    cases cls <;> try exact hkept
    simp only [step, h.1.cls_eq]
    rcases getValue u₁.cls with - | (- | - | -) | - <;>
      first | exact hkept | exact .some (.chosen h.2.1) | exact .some (.chosen h.2.2)
  · cases cls <;> exact hkept

theorem build_eq (FN : TermFactory) {cls : TermClass} (hcls : cls.isArithmetic = true) (type : Ty)
    (rs : List Term) : ∃ type' name', FN.build cls type rs = .mk 0 cls type' name' rs := by
  unfold TermFactory.build
  split
  · exact absurd hcls (by simp [TermClass.isArithmetic])
  · exact ⟨_, _, rfl⟩

theorem sameTree_accepted (FN : TermFactory) {obj : ℕ} {cls : TermClass} {type : Ty} {name : String}
    {subterms rs us : List Term} (hcls : cls.isArithmetic = true)
    (hlength : rs.length = subterms.length) (h : SameTrees rs us) :
    SameTree (Simplifier.accepted FN (.mk obj cls type name subterms) rs)
      (withSubterms (.mk obj cls type name subterms) us) := by
  unfold Simplifier.accepted
  split_ifs with heq
  · obtain rfl : rs = subterms := heq
    exact ⟨rfl, fun _ => rfl, h⟩
  · obtain ⟨type', name', hbuild⟩ := build_eq FN hcls type rs
    show SameTree (FN.build cls type rs) _
    rw [hbuild]
    refine ⟨rfl, fun hnil => absurd ?_ heq, h⟩
    rw [hnil, List.length_nil] at hlength
    rw [hnil, List.eq_nil_of_length_eq_zero hlength.symm]
    rfl

section
variable {constant : Ty → Constant → Term} {rebuild : Term → List Term → Term}

theorem length_transformAllWith : (ts rs : List Term) →
    transformAllWith constant rebuild ts = some rs → rs.length = ts.length
  | [], rs => fun h => by
    obtain rfl := Option.some.inj h
    rfl
  | t :: ts, rs => fun h => by
    obtain ⟨r, -, h⟩ := Option.bind_eq_some_iff.1 h
    obtain ⟨rs', hrs, rfl⟩ := Option.map_eq_some_iff.1 h
    exact congrArg (· + 1) (length_transformAllWith ts rs' hrs)

end

theorem sameTree_constant (type : Ty) (c : Constant) :
    SameTree (getOpaqueConstantTerm c) (typedConstant type c) := by
  cases c <;> exact ⟨rfl, fun _ => rfl, trivial⟩

mutual
/-- **The annotated term is the transformed one with other types.** -/
theorem sameTree_transform (FN : TermFactory) : (t : Term) →
    (∀ u ∈ t.collected, u.cls.isArithmetic = true) →
      Option.Rel SameTree (transform FN t) (annotated t)
  | .mk obj cls type name subterms => fun harith => by
    have hcls : cls.isArithmetic = true := harith _ (Term.collected_self _)
    have ih := sameTrees_transform FN subterms fun u hu => harith u (List.mem_append_left _ hu)
    unfold transform annotated
    rw [transformWith, transformWith]
    revert ih
    rcases hrs : transformAllWith _ (Simplifier.accepted FN) subterms with - | rs <;>
      rcases transformAllWith typedConstant withSubterms subterms with - | us <;> intro ih
    · exact .none
    · cases ih
    · cases ih
    · obtain ⟨hsame⟩ := ih
      have hstep := sameStep_step cls hsame
      rw [Option.bind_some, Option.bind_some]
      generalize step cls rs = s at hstep ⊢
      generalize step cls us = s' at hstep ⊢
      obtain hs | - := hstep
      · obtain c | h | - := hs
        · exact .some (sameTree_constant type c)
        · exact .some h
        · exact .some (sameTree_accepted FN hcls (length_transformAllWith _ _ hrs) hsame)
      · exact .none

theorem sameTrees_transform (FN : TermFactory) : (ts : List Term) →
    (∀ u ∈ Term.collectedAll ts, u.cls.isArithmetic = true) →
      Option.Rel SameTrees
        (transformAllWith (fun _ c => getOpaqueConstantTerm c) (Simplifier.accepted FN) ts)
        (transformAllWith typedConstant withSubterms ts)
  | [] => fun _ => .some trivial
  | t :: ts => fun harith => by
    have hhead := sameTree_transform FN t fun u hu => harith u (List.mem_append_left _ hu)
    have htail := sameTrees_transform FN ts fun u hu => harith u (List.mem_append_right _ hu)
    unfold transform annotated at hhead
    rw [transformAllWith, transformAllWith]
    generalize transformWith _ (Simplifier.accepted FN) t = r at hhead ⊢
    generalize transformWith typedConstant withSubterms t = r' at hhead ⊢
    generalize transformAllWith _ (Simplifier.accepted FN) ts = rs at htail ⊢
    generalize transformAllWith typedConstant withSubterms ts = rs' at htail ⊢
    obtain hr | - := hhead
    · obtain hrs | - := htail
      · exact .some ⟨hr, hrs⟩
      · exact .none
    · exact .none
end

/-! ## Constant expressions -/

/-- The 64-bit value of a node whose subterms have these values. -/
def hostNode : TermClass → List (Option Constant) → Option Constant
  | .opaqueBoolConstant b, _ => some (.bool b)
  | .opaqueIntConstant v, _ => some (.int (BitVec.ofInt 64 v))
  | .unary op, [some value] => some (propagateUnary op value)
  | .binary op, [some left, some right] => propagateArith op left right
  | .cmp op, [some left, some right] => propagateCmp op left right
  | .ternary, [some (.bool b), tru, fls] => if b then tru else fls
  | _, _ => none

mutual
/-- The 64-bit value of a constant expression; a selection is one when its condition and the branch
that is taken are. -/
def host : Term → Option Constant
  | .mk _ cls _ _ subterms => hostNode cls (hosts subterms)

/-- The values of the subterms. -/
def hosts : List Term → List (Option Constant)
  | [] => []
  | t :: ts => host t :: hosts ts
end

/-- The value of a folded constant at a type. -/
def read (type : Ty) : Constant → Option Meaning
  | .bool b => some (.bool b)
  | .int v => type.machineConstant v.toInt

/-- No division by zero and no other undefined behaviour in the folding of the node. -/
def Finishes (t : Term) : Prop :=
  match t.cls, t.getSubterms with
  | .binary op, [lhv, rhv] => ∀ x y, host lhv = some x → host rhv = some y →
      ∃ c, propagateArith op x y = some c
  | .cmp op, [lhv, rhv] => ∀ x y, host lhv = some x → host rhv = some y →
      ∃ c, propagateCmp op x y = some c
  | _, _ => True

/-- The operation on the 64-bit values of constant operands, read at the type of the node, is that
of the machine on the operands read at their own types. -/
def Agrees (t : Term) : Prop :=
  match t.cls, t.getSubterms with
  | .unary op, [rhv] => ∀ x, host rhv = some x →
      read t.getType (propagateUnary op x) =
        (read rhv.getType x).bind fun value => value.machineUnary op
  | .binary op, [lhv, rhv] => ∀ x y, host lhv = some x → host rhv = some y →
      ∃ c, propagateArith op x y = some c ∧ read t.getType c =
        (read lhv.getType x).bind fun left =>
          (read rhv.getType y).bind fun right => left.machineBinary t.getType op right
  | .cmp op, [lhv, rhv] => ∀ x y, host lhv = some x → host rhv = some y →
      ∃ c, propagateCmp op x y = some c ∧ read t.getType c =
        (read lhv.getType x).bind fun left =>
          (read rhv.getType y).bind fun right => left.machineCmp op right
  | _, _ => True

theorem getValue_typedConstant (type : Ty) (c : Constant) :
    getValue (typedConstant type c).cls = some c := by
  cases c with
  | bool b => rfl
  | int v =>
      show some (Constant.int (BitVec.ofInt 64 v.toInt)) = _
      rw [BitVec.ofInt_toInt]

/-- The values of transformed subterms decide about the step. -/
theorem hostNode_of_step {cls : TermClass} {rs : List Term} {s : Step} (h : step cls rs = some s) :
    hostNode cls (rs.map fun r => getValue r.cls) =
      match s with
      | .folded c => some c
      | .chosen r => getValue r.cls
      | .kept => getValue cls := by
  cases cls with
  | unary op =>
      rcases rs with - | ⟨r, - | ⟨r', rs⟩⟩
      · obtain rfl := Option.some.inj h
        rfl
      · simp only [step] at h
        rcases hvalue : getValue r.cls with - | value <;> rw [hvalue] at h <;>
          obtain rfl := Option.some.inj h <;>
          simp only [List.map_cons, List.map_nil, hvalue] <;> rfl
      · obtain rfl := Option.some.inj h
        simp [hostNode, getValue]
  | binary op | cmp op =>
      rcases rs with - | ⟨l, - | ⟨r, - | ⟨r', rs⟩⟩⟩
      · obtain rfl := Option.some.inj h
        rfl
      · obtain rfl := Option.some.inj h
        simp [hostNode, getValue]
      · simp only [step] at h
        rcases hleft : getValue l.cls with - | left <;>
          rcases hright : getValue r.cls with - | right <;> simp only [hleft, hright] at h
        · obtain rfl := Option.some.inj h
          simp only [List.map_cons, List.map_nil, hleft, hright]
          rfl
        · obtain rfl := Option.some.inj h
          simp only [List.map_cons, List.map_nil, hleft, hright]
          rfl
        · obtain rfl := Option.some.inj h
          simp only [List.map_cons, List.map_nil, hleft, hright]
          rfl
        · obtain ⟨c, hc, rfl⟩ := Option.map_eq_some_iff.1 h
          simp [hostNode, hleft, hright, hc]
      · obtain rfl := Option.some.inj h
        simp [hostNode, getValue]
  | ternary =>
      rcases rs with - | ⟨c, - | ⟨t, - | ⟨f, - | ⟨r', rs⟩⟩⟩⟩
      · obtain rfl := Option.some.inj h
        rfl
      · obtain rfl := Option.some.inj h
        simp [hostNode, getValue]
      · obtain rfl := Option.some.inj h
        simp [hostNode, getValue]
      · simp only [step] at h
        rcases hcnd : getValue c.cls with - | (b | v) <;> rw [hcnd] at h <;>
          obtain rfl := Option.some.inj h
        · simp only [List.map_cons, List.map_nil, hcnd]
          rfl
        · simp only [List.map_cons, List.map_nil, hcnd]
          cases b <;> rfl
        · simp only [List.map_cons, List.map_nil, hcnd]
          rfl
      · obtain rfl := Option.some.inj h
        simp [hostNode, getValue]
  | _ =>
      obtain rfl := Option.some.inj h
      simp [hostNode, getValue]

mutual
/-- A transformed term is a constant exactly when the term is a constant expression. -/
theorem getValue_annotated : (t r : Term) → annotated t = some r → getValue r.cls = host t
  | .mk obj cls type name subterms, r => fun h => by
    obtain ⟨rs, hrs, h⟩ := Option.bind_eq_some_iff.1 h
    obtain ⟨s, hs, rfl⟩ := Option.map_eq_some_iff.1 h
    have hnode := hostNode_of_step hs
    rw [host, ← getValues_annotated subterms rs hrs, hnode]
    cases s with
    | folded c => exact getValue_typedConstant type c
    | chosen r => rfl
    | kept => rfl

theorem getValues_annotated : (ts rs : List Term) →
    transformAllWith typedConstant withSubterms ts = some rs →
      (rs.map fun r => getValue r.cls) = hosts ts
  | [], rs => fun h => by
    obtain rfl := Option.some.inj h
    rfl
  | t :: ts, rs => fun h => by
    obtain ⟨r, hr, h⟩ := Option.bind_eq_some_iff.1 h
    obtain ⟨rs', hrs, rfl⟩ := Option.map_eq_some_iff.1 h
    rw [List.map_cons, hosts, getValue_annotated t r hr, getValues_annotated ts rs' hrs]
end

/-! ## One node -/

section Node

variable {σ : MachineValuation} {obj : ℕ} {cls : TermClass} {type : Ty} {name : String}
  {subterms rs : List Term}

theorem annotated_eq (hrs : transformAllWith typedConstant withSubterms subterms = some rs) :
    annotated (.mk obj cls type name subterms) =
      (step cls rs).map
        (Step.term typedConstant withSubterms (.mk obj cls type name subterms) rs) := by
  unfold annotated
  rw [transformWith, hrs, Option.bind_some]

theorem machine_typedConstant (type : Ty) (c : Constant) :
    (typedConstant type c).machine σ = read type c := by
  cases c <;> rfl

/-- The types of terms that the factory makes, with at most 64 bits. -/
structure Typed (t : Term) : Prop where
  width : ∀ w s, t.getType = .integer w s → w ≤ 64
  constant : (getValue t.cls).isSome = true → t.getSubterms = []
  ternary : t.cls = .ternary → ∀ cnd tru fls, t.getSubterms = [cnd, tru, fls] →
    tru.getType.sort = t.getType.sort ∧ fls.getType.sort = t.getType.sort

/-- A constant of at most 64 bits is that of its 64-bit value. -/
theorem machineConstant_ofInt (hwidth : ∀ w s, type = .integer w s → w ≤ 64) (v : ℤ) :
    type.machineConstant (BitVec.ofInt 64 v).toInt = type.machineConstant v := by
  cases type with
  | integer w s =>
      have hcut : BitVec.ofInt w (BitVec.ofInt 64 v).toInt = BitVec.ofInt w v := by
        rw [← setWidth_ofInt_of_le (hwidth w s rfl), BitVec.ofInt_toInt,
          setWidth_ofInt_of_le (hwidth w s rfl)]
      rw [Ty.machineConstant, Ty.machineConstant, hcut]
  | _ => rfl

theorem read_congr {type' : Ty} (hsort : type.sort = type'.sort) (c : Constant) :
    read type c = read type' c := by
  cases c with
  | bool b => rfl
  | int v => exact Ty.machineConstant_congr hsort v.toInt

/-- A step that selects a term is that of a selection with a constant condition. -/
theorem chosen_of_step {r : Term} (h : step cls rs = some (.chosen r)) :
    cls = .ternary ∧ ∃ b cnd tru fls, rs = [cnd, tru, fls] ∧ getValue cnd.cls = some (.bool b) ∧
      r = if b then tru else fls := by
  unfold step at h
  split at h
  · split at h <;> simp at h
  · split at h <;> simp at h
  · split at h <;> simp at h
  · rename_i cnd tru fls
    split at h
    · rename_i b hb
      exact ⟨rfl, b, cnd, tru, fls, rfl, hb, (Step.chosen.inj (Option.some.inj h)).symm⟩
    · simp at h
  · simp at h

mutual
/-- **A transformed term that is a constant** has its 64-bit value, read at the type of the term. -/
theorem machine_annotated : (t r : Term) → (∀ u ∈ t.collected, Typed u) → annotated t = some r →
    ∀ x, getValue r.cls = some x → r.machine σ = read t.getType x
  | .mk obj cls type name subterms, r => fun htyped h x hx => by
    have hself : Typed (.mk obj cls type name subterms) := htyped _ (Term.collected_self _)
    obtain ⟨rs, hrs, h⟩ := Option.bind_eq_some_iff.1 h
    obtain ⟨s, hs, rfl⟩ := Option.map_eq_some_iff.1 h
    cases s with
    | folded c =>
        obtain rfl : c = x := Option.some.inj ((getValue_typedConstant type c).symm.trans hx)
        exact machine_typedConstant type c
    | chosen r =>
        obtain ⟨rfl, b, cnd, tru, fls, rfl, -, rfl⟩ := chosen_of_step hs
        have hconst := machines_annotated subterms _
          (fun u hu => htyped u (List.mem_append_left _ hu)) hrs
        obtain - | ⟨-, - | ⟨htru, - | ⟨hfls, ⟨⟩⟩⟩⟩ := hconst
        obtain ⟨hsortTru, hsortFls⟩ := hself.ternary rfl _ _ _ rfl
        cases b with
        | true => exact (htru x hx).trans (read_congr hsortTru x)
        | false => exact (hfls x hx).trans (read_congr hsortFls x)
    | kept =>
        obtain rfl : subterms = [] := hself.constant (by
          show (getValue cls).isSome = true
          rw [show getValue cls = some x from hx]
          rfl)
        obtain rfl := Option.some.inj hrs
        cases cls with
        | opaqueBoolConstant b =>
            obtain rfl := Option.some.inj hx
            rfl
        | opaqueIntConstant v =>
            obtain rfl := Option.some.inj hx
            exact (machineConstant_ofInt hself.width v).symm
        | _ =>
            have hnone : none = some x := hx
            cases hnone

theorem machines_annotated : (ts rs : List Term) → (∀ u ∈ Term.collectedAll ts, Typed u) →
    transformAllWith typedConstant withSubterms ts = some rs →
      List.Forall₂ (fun t r => ∀ x, getValue r.cls = some x →
        Term.machine σ r = read t.getType x) ts rs
  | [], rs => fun _ h => by
    obtain rfl := Option.some.inj h
    exact .nil
  | t :: ts, rs => fun htyped h => by
    obtain ⟨r, hr, h⟩ := Option.bind_eq_some_iff.1 h
    obtain ⟨rs', hrs, rfl⟩ := Option.map_eq_some_iff.1 h
    exact .cons (machine_annotated t r (fun u hu => htyped u (List.mem_append_left _ hu)) hr)
      (machines_annotated ts rs' (fun u hu => htyped u (List.mem_append_right _ hu)) hrs)
end

/-- Folding the node is defined as far as its operands are constants. -/
theorem step_iff_finishes
    (hrs : transformAllWith typedConstant withSubterms subterms = some rs) :
    (∃ s, step cls rs = some s) ↔ Finishes (.mk obj cls type name subterms) := by
  have hlength := length_transformAllWith _ _ hrs
  have hvalues := getValues_annotated subterms rs hrs
  cases cls with
  | binary op | cmp op =>
      rcases subterms with - | ⟨lhv, - | ⟨rhv, - | ⟨third, subterms⟩⟩⟩ <;>
        rcases rs with - | ⟨l, - | ⟨r, - | ⟨r', rs⟩⟩⟩ <;>
        simp only [List.length_cons, List.length_nil] at hlength <;> try omega
      · exact ⟨fun _ => trivial, fun _ => ⟨_, rfl⟩⟩
      · exact ⟨fun _ => trivial, fun _ => ⟨_, rfl⟩⟩
      · simp only [List.map_cons, List.map_nil, hosts, List.cons.injEq, and_true] at hvalues
        obtain ⟨hl, hr⟩ := hvalues
        show (∃ s, step _ _ = some s) ↔ ∀ x y, host lhv = some x → host rhv = some y → _
        simp only [step, hl, hr]
        rcases host lhv with - | x <;> rcases host rhv with - | y <;> simp
      · exact ⟨fun _ => trivial, fun _ => ⟨_, rfl⟩⟩
  | unary op =>
      refine ⟨fun _ => trivial, fun _ => ?_⟩
      rcases rs with - | ⟨r, - | ⟨r', rs⟩⟩
      · exact ⟨_, rfl⟩
      · simp only [step]
        rcases getValue r.cls with - | value <;> exact ⟨_, rfl⟩
      · exact ⟨_, rfl⟩
  | ternary =>
      refine ⟨fun _ => trivial, fun _ => ?_⟩
      rcases rs with - | ⟨c, - | ⟨t, - | ⟨f, - | ⟨r', rs⟩⟩⟩⟩ <;> try exact ⟨_, rfl⟩
      simp only [step]
      rcases getValue c.cls with - | (b | v) <;> exact ⟨_, rfl⟩
  | _ => exact ⟨fun _ => trivial, fun _ => ⟨_, rfl⟩⟩

end Node

/-! ## Preserved nodes -/

/-- The transformed term has the value of the term once its types are put back. -/
def Preserved (σ : MachineValuation) (t : Term) : Prop :=
  ∃ r, annotated t = some r ∧ r.machine σ = t.machine σ

section Preserved

variable {σ : MachineValuation} {obj : ℕ} {cls : TermClass} {type : Ty} {name : String}
  {subterms rs : List Term}

theorem exists_transformAllWith {ts : List Term} (h : ∀ u ∈ ts, Preserved σ u) :
    ∃ rs, transformAllWith typedConstant withSubterms ts = some rs ∧
      Term.machines σ rs = Term.machines σ ts := by
  induction ts with
  | nil => exact ⟨[], rfl, rfl⟩
  | cons t ts ih =>
      obtain ⟨⟨r, hr, hmachine⟩, hrest⟩ := List.forall_mem_cons.1 h
      obtain ⟨rs, hrs, hmachines⟩ := ih hrest
      refine ⟨r :: rs, ?_, by rw [Term.machines, Term.machines, hmachine, hmachines]⟩
      unfold annotated at hr
      rw [transformAllWith, hr, Option.bind_some, hrs, Option.map_some]

/-- A constant operand that is preserved has its 64-bit value. -/
theorem Preserved.machine_eq {u : Term} (h : Preserved σ u) (htyped : ∀ v ∈ u.collected, Typed v)
    {x : Constant} (hx : host u = some x) : u.machine σ = read u.getType x := by
  obtain ⟨r, hr, hmachine⟩ := h
  rw [← hmachine]
  exact machine_annotated u r htyped hr x ((getValue_annotated u r hr).trans hx)

theorem preserved_kept (hrs : transformAllWith typedConstant withSubterms subterms = some rs)
    (hmachines : Term.machines σ rs = Term.machines σ subterms)
    (hstep : step cls rs = some .kept) : Preserved σ (.mk obj cls type name subterms) := by
  refine ⟨.mk obj cls type name rs, ?_, ?_⟩
  · rw [annotated_eq hrs, hstep]
    rfl
  · rw [Term.machine, Term.machine, hmachines]

theorem preserved_folded_iff {c : Constant}
    (hrs : transformAllWith typedConstant withSubterms subterms = some rs)
    (hstep : step cls rs = some (.folded c)) :
    Preserved σ (.mk obj cls type name subterms) ↔
      read type c = (Term.mk obj cls type name subterms).machine σ := by
  have hresult : annotated (.mk obj cls type name subterms) = some (typedConstant type c) := by
    rw [annotated_eq hrs, hstep]
    rfl
  rw [← @machine_typedConstant σ type c]
  constructor
  · rintro ⟨r, hr, hmachine⟩
    obtain rfl := Option.some.inj (hresult.symm.trans hr)
    exact hmachine
  · intro hmachine
    exact ⟨_, hresult, hmachine⟩

/-- A node with two operands is preserved when folding them agrees with its value. -/
theorem preserved_two_iff {lhv rhv : Term} (fold : Constant → Constant → Option Constant)
    (value : Meaning → Meaning → Option Meaning)
    (hfold : ∀ l r x y, getValue l.cls = some x → getValue r.cls = some y →
      step cls [l, r] = (fold x y).map .folded)
    (hkept : ∀ l r, getValue l.cls = none ∨ getValue r.cls = none → step cls [l, r] = some .kept)
    (hvalue : (Term.mk obj cls type name [lhv, rhv]).machine σ =
      (lhv.machine σ).bind fun left => (rhv.machine σ).bind fun right => value left right)
    (htyped : ∀ u ∈ Term.collectedAll [lhv, rhv], Typed u)
    (hsub : ∀ u ∈ [lhv, rhv], Preserved σ u) :
    Preserved σ (.mk obj cls type name [lhv, rhv]) ↔
      ∀ x y, host lhv = some x → host rhv = some y → ∃ c, fold x y = some c ∧ read type c =
        (read lhv.getType x).bind fun left =>
          (read rhv.getType y).bind fun right => value left right := by
  obtain ⟨rs, hrs, hmachines⟩ := exists_transformAllWith hsub
  have hvalues := getValues_annotated _ _ hrs
  obtain ⟨hleft, hright⟩ : Preserved σ lhv ∧ Preserved σ rhv :=
    ⟨hsub lhv (by simp), hsub rhv (by simp)⟩
  rcases rs with - | ⟨l, - | ⟨r, - | ⟨r', rs⟩⟩⟩ <;>
    simp only [List.map_cons, List.map_nil, hosts, List.cons.injEq, reduceCtorEq, and_false,
      and_true] at hvalues
  obtain ⟨hl, hr⟩ := hvalues
  cases hx : host lhv with
  | none =>
      exact iff_of_true (preserved_kept hrs hmachines (hkept l r (Or.inl (hl.trans hx))))
        fun x y hnone _ => by cases hnone
  | some x =>
      cases hy : host rhv with
      | none =>
          exact iff_of_true (preserved_kept hrs hmachines (hkept l r (Or.inr (hr.trans hy))))
            fun x y _ hnone => by cases hnone
      | some y =>
          have hstep := hfold l r x y (hl.trans hx) (hr.trans hy)
          have hmachine : (Term.mk obj cls type name [lhv, rhv]).machine σ =
              (read lhv.getType x).bind fun left =>
                (read rhv.getType y).bind fun right => value left right := by
            rw [hvalue, hleft.machine_eq (fun u hu => htyped u (List.mem_append_left _ hu)) hx,
              hright.machine_eq (fun u hu => htyped u (List.mem_append_right _
                (List.mem_append_left _ hu))) hy]
          cases hc : fold x y with
          | none =>
              rw [hc] at hstep
              refine iff_of_false ?_ fun h => ?_
              · rintro ⟨r, hr, -⟩
                rw [annotated_eq hrs, hstep] at hr
                cases hr
              · obtain ⟨c, hsome, -⟩ := h x y rfl rfl
                exact Option.some_ne_none c (hsome.symm.trans hc)
          | some c =>
              rw [hc] at hstep
              rw [preserved_folded_iff hrs hstep, hmachine]
              constructor
              · rintro h x' y' hx' hy'
                obtain rfl := Option.some.inj hx'
                obtain rfl := Option.some.inj hy'
                exact ⟨c, hc, h⟩
              · intro h
                obtain ⟨c', hc', hread⟩ := h x y rfl rfl
                obtain rfl := Option.some.inj (hc.symm.trans hc')
                exact hread

/-- A node with one operand is preserved when folding it agrees with its value. -/
theorem preserved_one_iff {op : UnaryArithType} {rhv : Term}
    (htyped : ∀ u ∈ Term.collectedAll [rhv], Typed u) (hsub : ∀ u ∈ [rhv], Preserved σ u) :
    Preserved σ (.mk obj (.unary op) type name [rhv]) ↔
      Agrees (.mk obj (.unary op) type name [rhv]) := by
  obtain ⟨rs, hrs, hmachines⟩ := exists_transformAllWith hsub
  have hvalues := getValues_annotated _ _ hrs
  have hright : Preserved σ rhv := hsub rhv (List.mem_singleton_self _)
  show _ ↔ ∀ x, host rhv = some x → _
  rcases rs with - | ⟨r, - | ⟨r', rs⟩⟩ <;>
    simp only [List.map_cons, List.map_nil, hosts, List.cons.injEq, reduceCtorEq, and_false,
      and_true] at hvalues
  cases hx : host rhv with
  | none =>
      have hstep : step (.unary op) [r] = some .kept := by
        simp only [step, hvalues.trans hx]
      exact iff_of_true (preserved_kept hrs hmachines hstep) fun x hnone => by cases hnone
  | some x =>
      have hstep : step (.unary op) [r] = some (.folded (propagateUnary op x)) := by
        simp only [step, hvalues.trans hx]
      have hmachine : (Term.mk obj (.unary op) type name [rhv]).machine σ =
          (read rhv.getType x).bind fun value => value.machineUnary op := by
        rw [← hright.machine_eq (fun u hu => htyped u (List.mem_append_left _ hu)) hx]
        show TermClass.machine σ (.unary op) type name [rhv.machine σ] = _
        cases rhv.machine σ <;> rfl
      rw [preserved_folded_iff hrs hstep, hmachine]
      exact ⟨fun h y hy => Option.some.inj hy ▸ h, fun h => h x rfl⟩

/-- A selection is preserved with its subterms. -/
theorem preserved_ternary (hmachine : (Term.mk obj .ternary type name subterms).machine σ ≠ none)
    (htyped : ∀ u ∈ Term.collectedAll subterms, Typed u)
    (hsub : ∀ u ∈ subterms, Preserved σ u) :
    Preserved σ (.mk obj .ternary type name subterms) := by
  obtain ⟨rs, hrs, hmachines⟩ := exists_transformAllWith hsub
  by_cases hkept : step .ternary rs = some .kept
  · exact preserved_kept hrs hmachines hkept
  -- the condition is a boolean constant
  obtain ⟨b, cnd, tru, fls, rfl, hcnd, hstep⟩ : ∃ b cnd tru fls, rs = [cnd, tru, fls] ∧
      getValue cnd.cls = some (.bool b) ∧
      step .ternary rs = some (.chosen (if b then tru else fls)) := by
    rcases rs with - | ⟨c, - | ⟨t, - | ⟨f, - | ⟨r', rs⟩⟩⟩⟩ <;> try exact absurd rfl hkept
    rcases hc : getValue c.cls with - | (b | v)
    · exact absurd (by simp only [step, hc]) hkept
    · exact ⟨b, c, t, f, rfl, hc, by simp only [step, hc]⟩
    · exact absurd (by simp only [step, hc]) hkept
  have hvalue : cnd.machine σ = some (.bool b) := by
    have hconst := @machines_annotated σ subterms _ htyped hrs
    obtain - | ⟨hcond, -⟩ := hconst
    exact hcond _ hcnd
  have hselect : (Term.mk obj .ternary type name subterms).machine σ =
      TermClass.machine σ .ternary type name
        [some (.bool b), tru.machine σ, fls.machine σ] := by
    rw [Term.machine, ← hmachines, ← hvalue]
    rfl
  refine ⟨if b then tru else fls, by rw [annotated_eq hrs, hstep]; rfl, ?_⟩
  rw [hselect] at hmachine ⊢
  rcases htru : tru.machine σ with - | x <;> rcases hfls : fls.machine σ with - | y <;>
    rw [htru, hfls] at hmachine <;> try exact absurd rfl hmachine
  have hwidth : x.width = y.width := by
    by_contra hne
    exact hmachine (if_neg hne)
  show _ = if x.width = y.width then some (if b then x else y) else none
  rw [if_pos hwidth]
  cases b with
  | true => exact htru
  | false => exact hfls

theorem step_unary_other {op : UnaryArithType} {rs : List Term} (h : rs.length ≠ 1) :
    step (.unary op) rs = some .kept := by
  rcases rs with - | ⟨r, - | ⟨r', rs⟩⟩
  · rfl
  · exact absurd rfl h
  · rfl

theorem step_binary_other {op : ArithType} {rs : List Term} (h : rs.length ≠ 2) :
    step (.binary op) rs = some .kept := by
  rcases rs with - | ⟨l, - | ⟨r, - | ⟨r', rs⟩⟩⟩
  · rfl
  · rfl
  · exact absurd rfl h
  · rfl

theorem step_cmp_other {op : ConditionType} {rs : List Term} (h : rs.length ≠ 2) :
    step (.cmp op) rs = some .kept := by
  rcases rs with - | ⟨l, - | ⟨r, - | ⟨r', rs⟩⟩⟩
  · rfl
  · rfl
  · exact absurd rfl h
  · rfl

/-- **A node with preserved subterms** is preserved exactly when its operation agrees. -/
theorem preserved_iff_agrees {t : Term} (hmachine : t.machine σ ≠ none)
    (htyped : ∀ u ∈ t.collected, Typed u) (hsub : ∀ u ∈ t.getSubterms, Preserved σ u) :
    Preserved σ t ↔ Agrees t := by
  obtain ⟨obj, cls, type, name, subterms⟩ := t
  have htyped' : ∀ u ∈ Term.collectedAll subterms, Typed u :=
    fun u hu => htyped u (List.mem_append_left _ hu)
  -- with another number of subterms nothing is folded
  have hkept : (∀ rs : List Term, rs.length = subterms.length → step cls rs = some .kept) →
      Preserved σ (.mk obj cls type name subterms) := fun hstep => by
    obtain ⟨rs, hrs, hmachines⟩ := exists_transformAllWith hsub
    exact preserved_kept hrs hmachines (hstep rs (length_transformAllWith _ _ hrs))
  cases cls with
  | unary op =>
      rcases subterms with - | ⟨rhv, - | ⟨second, subterms⟩⟩
      · exact iff_of_true (hkept fun rs h => step_unary_other (by simp [h])) trivial
      · exact preserved_one_iff htyped' hsub
      · exact iff_of_true (hkept fun rs h => step_unary_other (by simp [h])) trivial
  | binary op =>
      rcases subterms with - | ⟨lhv, - | ⟨rhv, - | ⟨third, subterms⟩⟩⟩
      · exact iff_of_true (hkept fun rs h => step_binary_other (by simp [h])) trivial
      · exact iff_of_true (hkept fun rs h => step_binary_other (by simp [h])) trivial
      · refine preserved_two_iff (propagateArith op)
          (fun left right => left.machineBinary type op right) ?_ ?_ ?_ htyped' hsub
        · intro l r x y hl hr
          simp only [step, hl, hr]
        · rintro l r (hl | hr)
          · simp only [step, hl]
          · simp only [step, hr]
            rcases getValue l.cls with - | x <;> rfl
        · show TermClass.machine σ (.binary op) type name [lhv.machine σ, rhv.machine σ] = _
          cases lhv.machine σ <;> cases rhv.machine σ <;> rfl
      · exact iff_of_true (hkept fun rs h => step_binary_other (by simp [h])) trivial
  | cmp op =>
      rcases subterms with - | ⟨lhv, - | ⟨rhv, - | ⟨third, subterms⟩⟩⟩
      · exact iff_of_true (hkept fun rs h => step_cmp_other (by simp [h])) trivial
      · exact iff_of_true (hkept fun rs h => step_cmp_other (by simp [h])) trivial
      · refine preserved_two_iff (propagateCmp op)
          (fun left right => left.machineCmp op right) ?_ ?_ ?_ htyped' hsub
        · intro l r x y hl hr
          simp only [step, hl, hr]
        · rintro l r (hl | hr)
          · simp only [step, hl]
          · simp only [step, hr]
            rcases getValue l.cls with - | x <;> rfl
        · show TermClass.machine σ (.cmp op) type name [lhv.machine σ, rhv.machine σ] = _
          cases lhv.machine σ <;> cases rhv.machine σ <;> rfl
      · exact iff_of_true (hkept fun rs h => step_cmp_other (by simp [h])) trivial
  | ternary => exact iff_of_true (preserved_ternary hmachine htyped' hsub) trivial
  | _ => exact iff_of_true (hkept fun _ _ => rfl) trivial

mutual
/-- Where every operation agrees, the term is preserved. -/
theorem preserved_of_agrees : (t : Term) → (∀ u ∈ t.collected, u.machine σ ≠ none) →
    (∀ u ∈ t.collected, Typed u) → (∀ u ∈ t.collected, Agrees u) → Preserved σ t
  | .mk obj cls type name subterms => fun hmachine htyped hagrees => by
    have hsub : ∀ u ∈ subterms, Preserved σ u := preservedAll_of_agrees subterms
      (fun u hu => hmachine u (List.mem_append_left _ hu))
      (fun u hu => htyped u (List.mem_append_left _ hu))
      (fun u hu => hagrees u (List.mem_append_left _ hu))
    have hself := Term.collected_self (.mk obj cls type name subterms)
    exact (preserved_iff_agrees (hmachine _ hself) htyped hsub).2 (hagrees _ hself)

theorem preservedAll_of_agrees : (ts : List Term) →
    (∀ u ∈ Term.collectedAll ts, u.machine σ ≠ none) → (∀ u ∈ Term.collectedAll ts, Typed u) →
      (∀ u ∈ Term.collectedAll ts, Agrees u) → ∀ u ∈ ts, Preserved σ u
  | [] => fun _ _ _ u hu => absurd hu List.not_mem_nil
  | t :: ts => fun hmachine htyped hagrees => by
    refine List.forall_mem_cons.2 ⟨preserved_of_agrees t ?_ ?_ ?_,
      preservedAll_of_agrees ts ?_ ?_ ?_⟩
    · exact fun u hu => hmachine u (List.mem_append_left _ hu)
    · exact fun u hu => htyped u (List.mem_append_left _ hu)
    · exact fun u hu => hagrees u (List.mem_append_left _ hu)
    · exact fun u hu => hmachine u (List.mem_append_right _ hu)
    · exact fun u hu => htyped u (List.mem_append_right _ hu)
    · exact fun u hu => hagrees u (List.mem_append_right _ hu)
end

theorem mem_collectedAll {u : Term} : (ts : List Term) → u ∈ ts → u ∈ Term.collectedAll ts
  | [], hu => absurd hu List.not_mem_nil
  | t :: ts, hu => by
    rcases List.mem_cons.1 hu with rfl | hu
    · exact List.mem_append_left _ (Term.collected_self _)
    · exact List.mem_append_right _ (mem_collectedAll ts hu)

theorem mem_collected_of_subterm (t : Term) {u : Term} (hu : u ∈ t.getSubterms) :
    u ∈ t.collected := by
  obtain ⟨obj, cls, type, name, subterms⟩ := t
  exact List.mem_append_left _ (mem_collectedAll subterms hu)

/-- **All terms in a term are preserved** exactly when every operation in it agrees. -/
theorem all_preserved_iff {t : Term} (hmachine : ∀ u ∈ t.collected, u.machine σ ≠ none)
    (htyped : ∀ u ∈ t.collected, Typed u) :
    (∀ u ∈ t.collected, Preserved σ u) ↔ ∀ u ∈ t.collected, Agrees u := by
  constructor
  · intro hall u hu
    have hsubset := Term.collected_subset t hu
    refine (preserved_iff_agrees (hmachine u hu) (fun v hv => htyped v (hsubset hv))
      fun v hv => hall v (hsubset ?_)).1 (hall u hu)
    exact mem_collected_of_subterm u hv
  · intro hagrees u hu
    have hsubset := Term.collected_subset t hu
    exact preserved_of_agrees u (fun v hv => hmachine v (hsubset hv))
      (fun v hv => htyped v (hsubset hv)) fun v hv => hagrees v (hsubset hv)

mutual
/-- The transformation has a result when no folding in the term is undefined. -/
theorem annotated_iff_finishes : (t : Term) →
    ((∃ r, annotated t = some r) ↔ ∀ u ∈ t.collected, Finishes u)
  | .mk obj cls type name subterms => by
    rw [Term.collected, List.forall_mem_append, ← transformAllWith_iff_finishes subterms,
      List.forall_mem_singleton]
    constructor
    · rintro ⟨r, hr⟩
      obtain ⟨rs, hrs, hr⟩ := Option.bind_eq_some_iff.1 hr
      obtain ⟨s, hs, -⟩ := Option.map_eq_some_iff.1 hr
      exact ⟨⟨rs, hrs⟩, (step_iff_finishes hrs).1 ⟨s, hs⟩⟩
    · rintro ⟨⟨rs, hrs⟩, hfinishes⟩
      obtain ⟨s, hs⟩ := (step_iff_finishes hrs).2 hfinishes
      exact ⟨_, by rw [annotated_eq hrs, hs, Option.map_some]⟩

theorem transformAllWith_iff_finishes : (ts : List Term) →
    ((∃ rs, transformAllWith typedConstant withSubterms ts = some rs) ↔
      ∀ u ∈ Term.collectedAll ts, Finishes u)
  | [] => iff_of_true ⟨[], rfl⟩ fun u hu => absurd hu List.not_mem_nil
  | t :: ts => by
    rw [Term.collectedAll, List.forall_mem_append, ← annotated_iff_finishes t,
      ← transformAllWith_iff_finishes ts]
    constructor
    · rintro ⟨rs, hrs⟩
      obtain ⟨r, hr, hrs⟩ := Option.bind_eq_some_iff.1 hrs
      obtain ⟨rs', hrs', -⟩ := Option.map_eq_some_iff.1 hrs
      exact ⟨⟨r, hr⟩, rs', hrs'⟩
    · rintro ⟨⟨r, hr⟩, rs, hrs⟩
      unfold annotated at hr
      exact ⟨r :: rs, by rw [transformAllWith, hr, Option.bind_some, hrs, Option.map_some]⟩
end

end Preserved

/-! ## Operations that agree -/

section Agrees

variable {w : ℕ} {s sl sr : Signedness} {obj : ℕ} {name : String} {lhv rhv : Term}

theorem read_int (hpos : 0 < w) (hwidth : w ≤ 64) (v : BitVec 64) :
    read (.integer w s) (.int v) = some (.bv w (v.setWidth w)) := by
  have hcut : BitVec.ofInt w v.toInt = v.setWidth w := by
    rw [← setWidth_ofInt_of_le hwidth, BitVec.ofInt_toInt]
  rw [read, Ty.machineConstant, if_pos hpos, hcut]

theorem machineBinary_bv (type : Ty) (op : ArithType) (x y : BitVec w) :
    (Meaning.bv w x).machineBinary type op (.bv w y) =
      (Meaning.machineArith type op x y).map (.bv w) := by
  rw [Meaning.machineBinary, dif_pos rfl]

theorem machineCmp_bv (op : ConditionType) (x y : BitVec w) :
    (Meaning.bv w x).machineCmp op (.bv w y) = (Meaning.bvCompare op x y).map .bool := by
  rw [Meaning.machineCmp, dif_pos rfl]

/-- The operators whose low bits depend on the low bits of their operands only. -/
def isRing : ArithType → Bool
  | .add | .sub | .mul | .band | .bor | .xor => true
  | _ => false

/-- The width of a term cuts the 64-bit result of these down to the machine's. -/
theorem machineArith_setWidth {op : ArithType} (hop : isRing op = true) (hwidth : w ≤ 64)
    (type : Ty) (x y : BitVec 64) : ∃ v, propagateInt op x y = some v ∧
      Meaning.machineArith type op (x.setWidth w) (y.setWidth w) = some (v.setWidth w) := by
  cases op with
  | add => exact ⟨x + y, rfl, congrArg some (BitVec.setWidth_add x y hwidth).symm⟩
  | mul => exact ⟨x * y, rfl, congrArg some (BitVec.setWidth_mul x y hwidth).symm⟩
  | band => exact ⟨x &&& y, rfl, congrArg some BitVec.setWidth_and.symm⟩
  | bor => exact ⟨x ||| y, rfl, congrArg some BitVec.setWidth_or.symm⟩
  | xor => exact ⟨x ^^^ y, rfl, congrArg some BitVec.setWidth_xor.symm⟩
  | sub =>
      refine ⟨x - y, rfl, congrArg some ?_⟩
      have hsum : (x - y).setWidth w + y.setWidth w = x.setWidth w := by
        rw [← BitVec.setWidth_add _ _ hwidth, BitVec.sub_add_cancel]
      exact BitVec.eq_sub_iff_add_eq.2 hsum |>.symm
  | _ => cases hop

/-- A binary operator agrees where its 64-bit result, cut down, is the machine's. -/
theorem agrees_of_machineArith {op : ArithType} (hpos : 0 < w) (hwidth : w ≤ 64)
    (hl : lhv.getType = .integer w sl) (hr : rhv.getType = .integer w sr)
    (hx : ∀ x, host lhv = some x → ∃ v, x = .int v)
    (hy : ∀ y, host rhv = some y → ∃ v, y = .int v)
    (harith : ∀ x y, host lhv = some (.int x) → host rhv = some (.int y) →
      ∃ v, propagateInt op x y = some v ∧ Meaning.machineArith (.integer w s) op (x.setWidth w)
        (y.setWidth w) = some (v.setWidth w)) :
    Agrees (.mk obj (.binary op) (.integer w s) name [lhv, rhv]) := by
  intro x y hhx hhy
  obtain ⟨x, rfl⟩ := hx x hhx
  obtain ⟨y, rfl⟩ := hy y hhy
  obtain ⟨v, hv, hmachine⟩ := harith x y hhx hhy
  refine ⟨.int v, ?_, ?_⟩
  · show (propagateInt op x y).map Constant.int = _
    rw [hv, Option.map_some]
  · show read (.integer w s) (.int v) = _
    rw [hl, hr, read_int hpos hwidth, read_int hpos hwidth, read_int hpos hwidth,
      Option.bind_some, Option.bind_some, machineBinary_bv]
    show _ = (Meaning.machineArith (.integer w s) op _ _).map _
    rw [hmachine, Option.map_some]

/-- **Sums, differences, products and bitwise operations** always agree. -/
theorem agrees_ring {op : ArithType} (hop : isRing op = true) (hpos : 0 < w) (hwidth : w ≤ 64)
    (hl : lhv.getType = .integer w sl) (hr : rhv.getType = .integer w sr)
    (hx : ∀ x, host lhv = some x → ∃ v, x = .int v)
    (hy : ∀ y, host rhv = some y → ∃ v, y = .int v) :
    Agrees (.mk obj (.binary op) (.integer w s) name [lhv, rhv]) :=
  agrees_of_machineArith hpos hwidth hl hr hx hy fun x y _ _ =>
    machineArith_setWidth hop hwidth (.integer w s) x y

/-- A 64-bit number in the signed range of a width. -/
def InRange (w : ℕ) (v : BitVec 64) : Prop := (v.setWidth w).toInt = v.toInt

theorem toInt_setWidth_eq (hwidth : w ≤ 64) (v : BitVec 64) :
    (v.setWidth w).toInt = v.toInt.bmod (2 ^ w) := by
  rw [BitVec.toInt_setWidth, BitVec.toInt_eq_toNat_bmod,
    Int.bmod_bmod_of_dvd (Nat.pow_dvd_pow 2 hwidth)]

/-- Signed divisions and remainders of numbers in the range of their type. -/
theorem machineArith_inRange {op : ArithType} {type : Ty} (hop : op = .div ∨ op = .rem)
    (htype : type.isUnsigned = false) (hwidth : w ≤ 64) {x y : BitVec 64} (hx : InRange w x)
    (hy : InRange w y)
    (hdefined : Meaning.machineArith type op (x.setWidth w) (y.setWidth w) ≠ none) :
    ∃ v, propagateInt op x y = some v ∧
      Meaning.machineArith type op (x.setWidth w) (y.setWidth w) = some (v.setWidth w) := by
  have hmachine : ¬ (y.setWidth w = 0 ∨
      x.setWidth w = BitVec.intMin w ∧ y.setWidth w = BitVec.allOnes w) := by
    intro hundefined
    apply hdefined
    rcases hop with rfl | rfl <;>
      simp only [Meaning.machineArith, ArithType.machineOp, htype, Option.bind_some,
        BinaryOps.value, Bool.false_eq_true, if_false] <;>
      exact if_pos hundefined
  have hhost : ¬ (y = 0 ∨ x = BitVec.intMin 64 ∧ y = BitVec.allOnes 64) := by
    rintro (rfl | ⟨rfl, rfl⟩)
    · exact hmachine (Or.inl (BitVec.setWidth_zero w 64))
    · -- the least number is in the range of 64 bits only
      have hle := BitVec.le_toInt ((BitVec.intMin 64).setWidth w)
      rw [hx] at hle
      have hpow : (2 : ℤ) ^ 63 ≤ 2 ^ (w - 1) := by
        have hmin : (BitVec.intMin 64).toInt = -2 ^ 63 := by decide
        rw [hmin] at hle
        linarith
      have hw : 63 ≤ w - 1 := (pow_le_pow_iff_right₀ (by decide : (1 : ℤ) < 2)).1 hpow
      obtain rfl : w = 64 := by omega
      exact hmachine (Or.inr ⟨BitVec.setWidth_eq _, BitVec.setWidth_eq _⟩)
  rcases hop with rfl | rfl
  · refine ⟨x.sdiv y, if_neg hhost, ?_⟩
    have hvalue : (x.setWidth w).sdiv (y.setWidth w) = (x.sdiv y).setWidth w := by
      apply BitVec.eq_of_toInt_eq
      rw [toInt_setWidth_eq hwidth, BitVec.toInt_sdiv, BitVec.toInt_sdiv, hx, hy,
        Int.bmod_bmod_of_dvd (Nat.pow_dvd_pow 2 hwidth)]
    simp only [Meaning.machineArith, ArithType.machineOp, htype, Option.bind_some,
      BinaryOps.value, Bool.false_eq_true, if_false]
    rw [if_neg hmachine, hvalue]
  · refine ⟨x.srem y, if_neg hhost, ?_⟩
    have hvalue : (x.setWidth w).srem (y.setWidth w) = (x.srem y).setWidth w := by
      apply BitVec.eq_of_toInt_eq
      rw [toInt_setWidth_eq hwidth, BitVec.toInt_srem x y, ← hx, ← hy, ← BitVec.toInt_srem,
        BitVec.toInt_bmod_cancel]
    simp only [Meaning.machineArith, ArithType.machineOp, htype, Option.bind_some,
      BinaryOps.value, Bool.false_eq_true, if_false]
    rw [if_neg hmachine, hvalue]

/-- **Signed divisions and remainders** agree where the machine has a result and the 64-bit values
of the operands are in the range of their type. -/
theorem agrees_div {op : ArithType} (hop : op = .div ∨ op = .rem) (hs : s ≠ .unsigned)
    (hpos : 0 < w) (hwidth : w ≤ 64) (hl : lhv.getType = .integer w sl)
    (hr : rhv.getType = .integer w sr)
    (hx : ∀ x, host lhv = some x → ∃ v, x = .int v ∧ InRange w v)
    (hy : ∀ y, host rhv = some y → ∃ v, y = .int v ∧ InRange w v)
    (hdefined : ∀ x y, host lhv = some (.int x) → host rhv = some (.int y) →
      Meaning.machineArith (.integer w s) op (x.setWidth w) (y.setWidth w) ≠ none) :
    Agrees (.mk obj (.binary op) (.integer w s) name [lhv, rhv]) := by
  have htype : (Ty.integer w s).isUnsigned = false := by
    cases s with
    | unsigned => exact absurd rfl hs
    | _ => rfl
  have hrange : ∀ {t : Term} {v : BitVec 64},
      (∀ x, host t = some x → ∃ v, x = .int v ∧ InRange w v) → host t = some (.int v) →
        InRange w v := fun ht hv => by
    obtain ⟨v', hv', hin⟩ := ht _ hv
    exact Constant.int.inj hv' ▸ hin
  refine agrees_of_machineArith hpos hwidth hl hr (fun x h => ?_) (fun y h => ?_) fun x y h h' => ?_
  · obtain ⟨v, hv, -⟩ := hx x h
    exact ⟨v, hv⟩
  · obtain ⟨v, hv, -⟩ := hy y h
    exact ⟨v, hv⟩
  · exact machineArith_inRange hop htype hwidth (hrange hx h) (hrange hy h') (hdefined x y h h')

/-- The comparisons that are not unsigned ones. -/
def isSigned : ConditionType → Bool
  | .eq | .neq | .gt | .ge | .lt | .le | .true | .false => true
  | _ => false

theorem propagateCmp_setWidth {op : ConditionType} (hop : isSigned op = true) {x y : BitVec 64}
    (hx : InRange w x) (hy : InRange w y) :
    ∃ b, propagateCmp op (.int x) (.int y) = some (.bool b) ∧
      Meaning.bvCompare op (x.setWidth w) (y.setWidth w) = some b := by
  have heq : x.setWidth w = y.setWidth w ↔ x = y := by
    rw [← BitVec.toInt_inj, hx, hy, BitVec.toInt_inj]
  have hslt : ∀ {a b : BitVec 64}, InRange w a → InRange w b →
      (a.setWidth w).slt (b.setWidth w) = a.slt b := fun ha hb => by
    rw [BitVec.slt, BitVec.slt, ha, hb]
  have hsle : ∀ {a b : BitVec 64}, InRange w a → InRange w b →
      (a.setWidth w).sle (b.setWidth w) = a.sle b := fun ha hb => by
    rw [BitVec.sle, BitVec.sle, ha, hb]
  cases op with
  | eq => exact ⟨_, rfl, congrArg some (decide_eq_decide.2 heq)⟩
  | neq => exact ⟨_, rfl, congrArg some (decide_eq_decide.2 (not_congr heq))⟩
  | gt => exact ⟨_, rfl, congrArg some (hslt hy hx)⟩
  | ge => exact ⟨_, rfl, congrArg some (hsle hy hx)⟩
  | lt => exact ⟨_, rfl, congrArg some (hslt hx hy)⟩
  | le => exact ⟨_, rfl, congrArg some (hsle hx hy)⟩
  | true | false => exact ⟨_, rfl, rfl⟩
  | _ => cases hop

/-- **Signed comparisons** agree when the 64-bit values of the operands are in the range of their
type. -/
theorem agrees_cmp {op : ConditionType} {type : Ty} (hop : isSigned op = true) (hpos : 0 < w)
    (hwidth : w ≤ 64) (hl : lhv.getType = .integer w sl) (hr : rhv.getType = .integer w sr)
    (hx : ∀ x, host lhv = some x → ∃ v, x = .int v ∧ InRange w v)
    (hy : ∀ y, host rhv = some y → ∃ v, y = .int v ∧ InRange w v) :
    Agrees (.mk obj (.cmp op) type name [lhv, rhv]) := by
  intro x y hhx hhy
  obtain ⟨x, rfl, hrangex⟩ := hx x hhx
  obtain ⟨y, rfl, hrangey⟩ := hy y hhy
  obtain ⟨b, hb, hcompare⟩ := propagateCmp_setWidth hop hrangex hrangey
  refine ⟨.bool b, hb, ?_⟩
  show some (Meaning.bool b) = _
  rw [hl, hr, read_int hpos hwidth, read_int hpos hwidth, Option.bind_some, Option.bind_some,
    machineCmp_bv, hcompare, Option.map_some]

end Agrees

/-! ## The transformation -/

/-- A number of type `i8`. -/
def number (v : ℤ) : Term :=
  .mk 0 (.opaqueIntConstant v) (.integer 8 .signed) (toString v) []

/-- `a op b` of type `i8`. -/
def binaryTerm (op : ArithType) (a b : ℤ) : Term :=
  .mk 0 (.binary op) (.integer 8 .signed) "" [number a, number b]

/-- `127 + 1 > 0`. -/
def overflow : Term := .mk 0 (.cmp .gt) .bool "" [binaryTerm .add 127 1, number 0]

/-- Every variable is 0. -/
def zeros : MachineValuation := ⟨fun _ _ => 0, fun _ => false⟩

theorem typed_number (v : ℤ) : Typed (number v) := by
  refine ⟨?_, fun _ => rfl, ?_⟩
  · rintro w s ⟨⟩
    decide
  · exact fun h => TermClass.noConfusion h

theorem typed_binaryTerm (op : ArithType) (a b : ℤ) : Typed (binaryTerm op a b) := by
  refine ⟨?_, ?_, ?_⟩
  · rintro w s ⟨⟩
    decide
  · exact fun h => absurd h (by simp [binaryTerm, Term.cls, getValue])
  · exact fun h => TermClass.noConfusion h

end ConstantPropagator

end Borealis
