import Borealis.Term.MachineValue

/-!
# Translation of terms to expressions of the solver

`SMTImpl::doit` of the terms over integers and booleans, through the operators of
`SMT/Logic.stub.hpp` and the Z3 back end.  An expression is the value it has under an assignment of
the solver's variables; a translation that ends in `BYE_BYE`, in a failed assertion or in a sort
error of the solver has none.

## Strategy

The overloaded operators fix one primitive each: `/` and `%` are the signed division and remainder,
`>>` is the logical shift although `ASHR` goes through it, and `~` is the negation of booleans, which
does not exist for bit vectors.  `node_iff` compares one node with the machine, given what its
operands are; the divisions are compared by `Lib.sdiv_eq_udiv_iff` and `Lib.srem_eq_umod_iff`.  A
whole term follows by induction.
-/

namespace Borealis

namespace SMT

/-! ## The operators of the logic -/

/-- `AnyBitVector::binary`: both sides are extended to the larger size, with their signs. -/
def binary {m n : ℕ} {α : ℕ → Type} (op : (w : ℕ) → BitVec w → BitVec w → α w) (x : BitVec m)
    (y : BitVec n) : α (max m n) :=
  op (max m n) (x.signExtend (max m n)) (y.signExtend (max m n))

/-- The overloaded binary operators, and `lshr`, by the opcode that `BinaryTerm` uses them for. -/
def bvOperator : ArithType → Option ((w : ℕ) → BitVec w → BitVec w → BitVec w)
  | .add => some fun _ x y => x + y
  | .band => some fun _ x y => x &&& y
  | .bor => some fun _ x y => x ||| y
  | .div => some fun _ x y => x.smtSDiv y
  | .shl => some fun _ x y => x <<< y
  | .mul => some fun _ x y => x * y
  | .rem => some fun _ x y => x.srem y
  -- `>>` is `LSHR`
  | .ashr => some fun _ x y => x >>> y
  | .sub => some fun _ x y => x - y
  | .xor => some fun _ x y => x ^^^ y
  | .lshr => some fun _ x y => x >>> y
  | .land | .lor | .implies => none

/-- The overloaded comparisons, and the unsigned ones. -/
def bvComparison : ConditionType → Option ((w : ℕ) → BitVec w → BitVec w → Bool)
  | .eq => some fun _ x y => decide (x = y)
  | .neq => some fun _ x y => decide (x ≠ y)
  | .gt => some fun _ x y => y.slt x
  | .ge => some fun _ x y => y.sle x
  | .lt => some fun _ x y => x.slt y
  | .le => some fun _ x y => x.sle y
  | .ugt => some fun _ x y => y.ult x
  | .uge => some fun _ x y => y.ule x
  | .ult => some fun _ x y => x.ult y
  | .ule => some fun _ x y => x.ule y
  | .true | .false | .unknown => none

/-- `adaptTo`. -/
def adaptTo {m : ℕ} (n : ℕ) (signExtend : Bool) (x : BitVec m) : BitVec n :=
  if m < n then if signExtend then x.signExtend n else x.setWidth n else x.setWidth n

/-! ## The terms -/

/-- `SMTImpl<Impl, BinaryTerm>::doit`. -/
def binaryTerm (op : ArithType) : Meaning → Meaning → Option Meaning
  | .bool lhv, .bool rhv => (Meaning.boolArith op lhv rhv).map .bool
  | .bv m lhv, .bv n rhv =>
    (bvOperator op).map fun f => .bv (max m n) (binary f lhv rhv)
  | _, _ => none

/-- `SMTImpl<Impl, CmpTerm>::doit`. -/
def cmpTerm (op : ConditionType) (lhv rhv : Meaning) : Option Meaning :=
  match op with
  | .true => some (.bool true)
  | .false => some (.bool false)
  | op =>
    match lhv, rhv with
    | .bool lbool, .bool rbool =>
      match op with
      | .eq => some (.bool (decide (lbool = rbool)))
      | .neq => some (.bool (decide (lbool ≠ rbool)))
      | _ => none
    | .bv _ lbv, .bv _ rbv => (bvComparison op).map fun f => .bool (binary f lbv rbv)
    | _, _ => none

/-- `SMTImpl<Impl, UnaryTerm>::doit`.  `~` is the negation of booleans, and a bit vector is none. -/
def unaryTerm : UnaryArithType → Meaning → Option Meaning
  | .neg, .bv w x => some (.bv w (-x))
  | .not, .bool b => some (.bool !b)
  | _, _ => none

/-- `SMTImpl<Impl, CastTerm>::doit`. -/
def castTerm (signExtend : Bool) : Ty → Meaning → Option Meaning
  | .integer n _, .bv _ x => some (.bv n (adaptTo n signExtend x))
  | _, _ => none

end SMT

/-- `getVarByTypeAndName`. -/
def Ty.getVarByTypeAndName (σ : MachineValuation) (name : String) : Ty → Option Meaning
  | .integer w _ => if 0 < w then some (.bv w (σ.bv w name)) else none
  | .bool => some (.bool (σ.bool name))
  | _ => none

/-- `getIntConst` of a constant that is at most 64 bits wide: up to 32 bits it is made of an `int`,
beyond them of its decimal representation. -/
def Ty.getIntConst (value : ℤ) : Ty → Option Meaning
  | .integer w _ =>
    if w = 0 then none
    else if 32 < w then some (.bv w (BitVec.ofInt w value))
    else some (.bv w ((BitVec.ofInt 32 value).signExtend w))
  | _ => none

/-- `getIntConst` of a decimal representation. -/
def Ty.getIntConstOfString (representation : String) : Ty → Option Meaning
  | .integer w _ =>
    if w = 0 then none else some (.bv w (BitVec.ofNat w (decimalValue representation)))
  | _ => none

/-- `SMT::doit` of a term of this class from the translations of its subterms. -/
def TermClass.doit (σ : MachineValuation) :
    TermClass → Ty → String → List (Option Meaning) → Option Meaning
  | .value _, type, name, [] | .argument _ _, type, name, [] => type.getVarByTypeAndName σ name
  | .opaqueIntConstant v, type, _, [] => type.getIntConst v
  | .opaqueBigIntConstant representation, type, _, [] => type.getIntConstOfString representation
  | .opaqueBoolConstant b, _, _, [] => some (.bool b)
  | .binary op, _, _, [some lhv, some rhv] => SMT.binaryTerm op lhv rhv
  | .cmp op, _, _, [some lhv, some rhv] => SMT.cmpTerm op lhv rhv
  | .unary op, _, _, [some rhv] => SMT.unaryTerm op rhv
  | .cast signExtend, type, _, [some rhv] => SMT.castTerm signExtend type rhv
  | .ternary, _, _, [some cnd, some tru, some fls] => cnd.select tru fls
  | _, _, _, _ => none

namespace Term

mutual
/-- `SMT::doit`: the value of the translation of a term. -/
def doit (σ : MachineValuation) : Term → Option Meaning
  | mk _ cls type name subterms => cls.doit σ type name (doits σ subterms)

/-- The translations of the subterms. -/
def doits (σ : MachineValuation) : List Term → List (Option Meaning)
  | [] => []
  | t :: ts => doit σ t :: doits σ ts
end

end Term

/-! ## Where the translation is the machine value -/

/-- The operator of the solver computes what the machine does on these operands. -/
def ArithType.Represented {w : ℕ} (type : Ty) (x y : BitVec w) : ArithType → Prop
  | .div => type.isUnsigned = true →
      y.toNat = 1 ∨ x = y ∨ x.msb = false ∧ x.toNat + y.toNat < 2 ^ w
  | .rem => type.isUnsigned = true →
      x = y ∨ x.msb = false ∧ x.toNat + y.toNat < 2 ^ w ∨
        x.msb = true ∧ y.msb = false ∧ y.toNat ∣ x.toNat ∧ y.toNat ∣ 2 ^ w
  | .ashr => x.msb = false ∨ y = 0
  | _ => True

/-- What a node has to meet, given the machine values of its operands.  Booleans only have the
connectives, equality and `NOT`, and no casts; bit vectors have no `BNOT`. -/
def TermClass.Represented (type : Ty) : TermClass → List (Option Meaning) → Prop
  | .binary op, [some (.bool _), some (.bool _)] =>
    op = .band ∨ op = .land ∨ op = .bor ∨ op = .lor ∨ op = .xor ∨ op = .implies
  | .binary op, [some (.bv m x), some (.bv n y)] => ∀ h : n = m, op.Represented type x (h ▸ y)
  | .cmp op, [some (.bool _), some (.bool _)] =>
    op = .eq ∨ op = .neq ∨ op = .true ∨ op = .false
  | .unary op, [some (.bool _)] => op = .not
  | .unary op, [some (.bv _ _)] => op = .neg
  | .cast _, [some operand] => operand.width ≠ none ∧ type ≠ .bool
  | _, _ => True

namespace Term

mutual
/-- Every node of a term is represented. -/
def Represented (σ : MachineValuation) : Term → Prop
  | mk _ cls type _ subterms =>
    cls.Represented type (machines σ subterms) ∧ RepresentedAll σ subterms

/-- The same for the subterms. -/
def RepresentedAll (σ : MachineValuation) : List Term → Prop
  | [] => True
  | t :: ts => Represented σ t ∧ RepresentedAll σ ts
end

end Term

/-! ## One operator -/

section Operators

variable {w : ℕ} {x y : BitVec w}

namespace SMT

/-- Operands of one width are not extended. -/
theorem binary_self {α : ℕ → Type} {op : (w : ℕ) → BitVec w → BitVec w → α w} :
    HEq (@binary w w α op x y) (op w x y) := by
  have hmax : max w w = w := Nat.max_self w
  have hx : HEq (x.signExtend (max w w)) x := by
    rw [hmax, BitVec.signExtend_eq]
  have hy : HEq (y.signExtend (max w w)) y := by
    rw [hmax, BitVec.signExtend_eq]
  unfold binary
  congr

theorem binaryTerm_bv (op : ArithType) :
    binaryTerm op (.bv w x) (.bv w y) = (bvOperator op).map fun f => .bv w (f w x y) := by
  rw [binaryTerm]
  refine congrArg (fun g => (bvOperator op).map g) (funext fun f => ?_)
  rw [Meaning.bv.injEq]
  exact ⟨Nat.max_self w, binary_self⟩

/-- What an operator computes on bit vectors of one width. -/
theorem binaryTerm_eq_some_iff {op : ArithType} {f : (w : ℕ) → BitVec w → BitVec w → BitVec w}
    {z : BitVec w} (hf : bvOperator op = some f) :
    binaryTerm op (.bv w x) (.bv w y) = some (.bv w z) ↔ f w x y = z := by
  rw [binaryTerm_bv, hf, Option.map_some, Option.some_inj, Meaning.bv.injEq]
  exact ⟨fun h => eq_of_heq h.2, fun h => ⟨rfl, heq_of_eq h⟩⟩

theorem binary_comparison (f : (w : ℕ) → BitVec w → BitVec w → Bool) :
    @binary w w (fun _ => Bool) f x y = f w x y :=
  eq_of_heq binary_self

theorem smtSDiv_of_ne_zero (hy : y ≠ 0#w) : x.smtSDiv y = x.sdiv y := by
  have hneg : -y ≠ 0#w := fun h => hy (BitVec.neg_eq_zero_iff.1 h)
  have hudiv : ∀ a : BitVec w, a.smtUDiv y = a.udiv y := fun a => by
    rw [BitVec.smtUDiv_eq, if_neg hy]
    rfl
  have hudivNeg : ∀ a : BitVec w, a.smtUDiv (-y) = a.udiv (-y) := fun a => by
    rw [BitVec.smtUDiv_eq, if_neg hneg]
    rfl
  rw [BitVec.smtSDiv_eq, BitVec.sdiv_eq]
  simp only [hudiv, hudivNeg]

/-- **The two shifts to the right** differ as soon as a negative number is shifted. -/
theorem ushiftRight_eq_sshiftRight_iff :
    x >>> y = x.sshiftRight' y ↔ x.msb = false ∨ y = 0 := by
  rw [BitVec.sshiftRight', BitVec.ushiftRight_eq']
  constructor
  · intro heq
    by_contra hne
    obtain ⟨hmsb, hzero⟩ := not_or.1 hne
    have hpos : 0 < y.toNat :=
      Nat.pos_of_ne_zero fun h => hzero (BitVec.eq_of_toNat_eq (by rw [h]; rfl))
    -- the logical shift clears the sign, the arithmetic one keeps it
    have hsign := congrArg BitVec.msb heq
    rw [BitVec.msb_ushiftRight, BitVec.msb_sshiftRight, decide_eq_true hpos, Bool.not_true,
      Bool.false_and] at hsign
    exact hmsb hsign.symm
  · rintro (hmsb | rfl)
    · exact (BitVec.sshiftRight_eq_of_msb_false hmsb).symm
    · simp

/-- The operators on bit vectors of one width. -/
theorem binaryTerm_iff {type : Ty} {op : ArithType} {z : BitVec w}
    (hz : Meaning.machineArith type op x y = some z) :
    binaryTerm op (.bv w x) (.bv w y) = some (.bv w z) ↔ op.Represented type x y := by
  cases op with
  | add | sub | mul | band | bor | xor =>
      obtain rfl := Option.some.inj hz
      exact iff_of_true ((binaryTerm_eq_some_iff rfl).2 rfl) trivial
  | shl | lshr =>
      rw [Meaning.machineArith, ArithType.machineOp, Option.bind_some, BinaryOps.value] at hz
      split_ifs at hz with hlt
      obtain rfl := Option.some.inj hz
      exact iff_of_true ((binaryTerm_eq_some_iff rfl).2 rfl) trivial
  | ashr =>
      rw [Meaning.machineArith, ArithType.machineOp, Option.bind_some, BinaryOps.value] at hz
      split_ifs at hz with hlt
      obtain rfl := Option.some.inj hz
      exact (binaryTerm_eq_some_iff rfl).trans ushiftRight_eq_sshiftRight_iff
  | div =>
      rw [binaryTerm_eq_some_iff rfl, ArithType.Represented]
      rw [Meaning.machineArith, ArithType.machineOp, Option.bind_some] at hz
      cases hsign : type.isUnsigned with
      | false =>
          rw [hsign, if_neg Bool.false_ne_true, BinaryOps.value] at hz
          split_ifs at hz with hzero
          obtain rfl := Option.some.inj hz
          exact iff_of_true (smtSDiv_of_ne_zero fun h => hzero (Or.inl h)) (nomatch ·)
      | true =>
          rw [hsign, if_pos rfl, BinaryOps.value] at hz
          split_ifs at hz with hzero
          obtain rfl := Option.some.inj hz
          rw [smtSDiv_of_ne_zero hzero, Lib.sdiv_eq_udiv_iff hzero]
          exact ⟨fun h _ => h, fun h => h rfl⟩
  | rem =>
      rw [binaryTerm_eq_some_iff rfl, ArithType.Represented]
      rw [Meaning.machineArith, ArithType.machineOp, Option.bind_some] at hz
      cases hsign : type.isUnsigned with
      | false =>
          rw [hsign, if_neg Bool.false_ne_true, BinaryOps.value] at hz
          split_ifs at hz with hzero
          exact iff_of_true (Option.some.inj hz) (nomatch ·)
      | true =>
          rw [hsign, if_pos rfl, BinaryOps.value] at hz
          split_ifs at hz with hzero
          obtain rfl := Option.some.inj hz
          rw [Lib.srem_eq_umod_iff hzero]
          exact ⟨fun h _ => h, fun h => h rfl⟩
  | land | lor | implies => exact absurd hz (Option.some_ne_none _).symm

/-- The operators on booleans. -/
theorem binaryTerm_bool_iff {type : Ty} {op : ArithType} {a b : Bool} {m : Meaning}
    (hm : Meaning.machineBinary type op (.bool a) (.bool b) = some m) :
    binaryTerm op (.bool a) (.bool b) = some m ↔
      op = .band ∨ op = .land ∨ op = .bor ∨ op = .lor ∨ op = .xor ∨ op = .implies := by
  rw [Meaning.machineBinary] at hm
  rw [binaryTerm]
  cases op with
  | band | land | bor | lor | xor | implies => exact iff_of_true hm (by decide)
  | add | sub | mul | div | rem | shl | ashr | lshr =>
      exact iff_of_false (Option.some_ne_none _).symm (by decide)

/-- Comparisons of bit vectors of one width. -/
theorem cmpTerm_bv {op : ConditionType} {c : Bool} (hc : Meaning.bvCompare op x y = some c) :
    cmpTerm op (.bv w x) (.bv w y) = some (.bool c) := by
  cases op with
  | unknown => exact absurd hc (Option.some_ne_none _).symm
  | true | false => exact congrArg (Option.map Meaning.bool) hc
  | eq | neq | gt | ge | lt | le | ugt | uge | ult | ule =>
      simp only [cmpTerm, bvComparison, Option.map_some, binary_comparison]
      exact congrArg (Option.map Meaning.bool) hc

/-- Comparisons of booleans. -/
theorem cmpTerm_bool_iff {op : ConditionType} {a b c : Bool}
    (hc : Meaning.bvCompare op (BitVec.ofBool a) (BitVec.ofBool b) = some c) :
    cmpTerm op (.bool a) (.bool b) = some (.bool c) ↔
      op = .eq ∨ op = .neq ∨ op = .true ∨ op = .false := by
  cases op with
  | eq | neq | true | false =>
      refine iff_of_true ?_ (by decide)
      revert hc
      cases a <;> cases b <;> cases c <;> decide
  | gt | ge | lt | le | ugt | uge | ult | ule | unknown =>
      exact iff_of_false (Option.some_ne_none _).symm (by decide)

theorem adaptTo_eq_resize {m : ℕ} (n : ℕ) (signExtend : Bool) (v : BitVec m) :
    adaptTo n signExtend v = Meaning.resize signExtend n v := by
  rw [adaptTo, Meaning.resize]
  split_ifs with hlt hsign hsign
  · rfl
  · rfl
  · exact (BitVec.signExtend_eq_setWidth_of_le v (not_lt.1 hlt)).symm
  · rfl

end SMT

end Operators

/-! ## One node -/

section Node

variable {σ : MachineValuation} {type : Ty} {name : String} {m : Meaning}

theorem getIntConst_eq {value : ℤ} (hm : type.machineConstant value = some m) :
    type.getIntConst value = some m := by
  cases type with
  | integer w s =>
      rw [Ty.machineConstant] at hm
      split_ifs at hm with hw
      obtain rfl := Option.some.inj hm
      rw [Ty.getIntConst, if_neg hw.ne']
      split_ifs with hlt
      · rfl
      · -- cutting a number down to 32 bits first makes no difference
        have hcut : (BitVec.ofInt 32 value).signExtend w = BitVec.ofInt w value := by
          rw [BitVec.signExtend_eq_setWidth_of_le _ (not_lt.1 hlt)]
          exact setWidth_ofInt_of_le (not_lt.1 hlt) value
        rw [hcut]
  | _ => exact absurd hm (Option.some_ne_none _).symm

theorem getIntConstOfString_eq {representation : String}
    (hm : type.machineConstant (decimalValue representation) = some m) :
    type.getIntConstOfString representation = some m := by
  cases type with
  | integer w s =>
      rw [Ty.machineConstant] at hm
      split_ifs at hm with hw
      rw [Ty.getIntConstOfString, if_neg hw.ne', ← hm, BitVec.ofInt_natCast]
  | _ => exact absurd hm (Option.some_ne_none _).symm

theorem binaryTerm_node_iff {op : ArithType} {lhv rhv : Meaning}
    (hm : lhv.machineBinary type op rhv = some m) :
    SMT.binaryTerm op lhv rhv = some m ↔
      (TermClass.binary op).Represented type [some lhv, some rhv] := by
  cases lhv with
  | bool a =>
      cases rhv with
      | bool b => exact SMT.binaryTerm_bool_iff hm
      | bv n y => exact absurd hm (Option.some_ne_none _).symm
  | bv k x =>
      cases rhv with
      | bool b => exact absurd hm (Option.some_ne_none _).symm
      | bv n y =>
          rw [Meaning.machineBinary] at hm
          split_ifs at hm with hn
          subst hn
          obtain ⟨z, hz, rfl⟩ := Option.map_eq_some_iff.1 hm
          rw [SMT.binaryTerm_iff hz]
          exact ⟨fun h _ => h, fun h => h rfl⟩

theorem cmpTerm_node_iff {op : ConditionType} {lhv rhv : Meaning}
    (hm : lhv.machineCmp op rhv = some m) :
    SMT.cmpTerm op lhv rhv = some m ↔
      (TermClass.cmp op).Represented type [some lhv, some rhv] := by
  cases lhv with
  | bool a =>
      cases rhv with
      | bool b =>
          obtain ⟨c, hc, rfl⟩ := Option.map_eq_some_iff.1 hm
          exact SMT.cmpTerm_bool_iff hc
      | bv n y => exact absurd hm (Option.some_ne_none _).symm
  | bv k x =>
      cases rhv with
      | bool b => exact absurd hm (Option.some_ne_none _).symm
      | bv n y =>
          rw [Meaning.machineCmp] at hm
          split_ifs at hm with hn
          subst hn
          obtain ⟨c, hc, rfl⟩ := Option.map_eq_some_iff.1 hm
          exact iff_of_true (SMT.cmpTerm_bv hc) trivial

theorem unaryTerm_node_iff {op : UnaryArithType} {rhv : Meaning}
    (hm : rhv.machineUnary op = some m) :
    SMT.unaryTerm op rhv = some m ↔ (TermClass.unary op).Represented type [some rhv] := by
  cases rhv with
  | bool a =>
      cases op with
      | not => exact iff_of_true hm rfl
      | neg | bnot =>
          exact iff_of_false (Option.some_ne_none _).symm UnaryArithType.noConfusion
  | bv w x =>
      cases op with
      | neg => exact iff_of_true hm rfl
      | bnot => exact iff_of_false (Option.some_ne_none _).symm UnaryArithType.noConfusion
      | not => exact absurd hm (Option.some_ne_none _).symm

theorem castTerm_node_iff {signExtend : Bool} {rhv : Meaning}
    (hm : rhv.machineCast signExtend type = some m) :
    SMT.castTerm signExtend type rhv = some m ↔
      (TermClass.cast signExtend).Represented type [some rhv] := by
  cases type with
  | integer n s =>
      cases rhv with
      | bool a => exact iff_of_false (Option.some_ne_none _).symm fun h => h.1 rfl
      | bv w x =>
          refine iff_of_true ?_ ⟨Option.some_ne_none _, Ty.noConfusion⟩
          rw [SMT.castTerm, SMT.adaptTo_eq_resize]
          exact hm
  | bool =>
      refine iff_of_false ?_ fun h => h.2 rfl
      cases rhv <;> exact (Option.some_ne_none _).symm
  | _ => cases rhv <;> exact absurd hm (Option.some_ne_none _).symm

/-- **One node is translated to its machine value** exactly when it is represented. -/
theorem doit_node_iff {cls : TermClass} {operands : List (Option Meaning)}
    (hm : cls.machine σ type name operands = some m) :
    cls.doit σ type name operands = some m ↔ cls.Represented type operands := by
  unfold TermClass.machine at hm
  split at hm
  · exact iff_of_true hm trivial
  · exact iff_of_true hm trivial
  · exact iff_of_true (getIntConst_eq hm) trivial
  · exact iff_of_true (getIntConstOfString_eq hm) trivial
  · exact iff_of_true hm trivial
  · exact binaryTerm_node_iff hm
  · exact cmpTerm_node_iff hm
  · exact unaryTerm_node_iff hm
  · exact castTerm_node_iff hm
  · exact iff_of_true hm trivial
  · exact absurd hm (Option.some_ne_none _).symm

end Node

/-! ## Terms -/

namespace Term

variable {σ : MachineValuation}

/-- The operands of a node that has a machine value have one. -/
theorem operands_of_machine {cls : TermClass} {type : Ty} {name : String}
    {operands : List (Option Meaning)} {m : Meaning}
    (hm : cls.machine σ type name operands = some m) : none ∉ operands := by
  unfold TermClass.machine at hm
  split at hm <;> simp_all

mutual
/-- **The whole term is translated node by node to its machine values** exactly when each of its
nodes is represented. -/
theorem doit_collected_iff {m : Meaning} : (t : Term) → t.machine σ = some m →
    ((∀ u ∈ t.collected, u.doit σ = u.machine σ) ↔ t.Represented σ)
  | mk obj cls type name subterms, hm => by
    have hsubterms := doits_collected_iff subterms (operands_of_machine hm)
    rw [collected, List.forall_mem_append, List.forall_mem_singleton, hsubterms, Represented,
      and_comm]
    refine and_congr_left fun hall => ?_
    -- the operands are translated to their machine values by now
    have hoperands : doits σ subterms = machines σ subterms :=
      doits_eq_machines (hsubterms.2 hall)
    rw [hm, doit, hoperands]
    exact doit_node_iff hm

theorem doits_collected_iff : (ts : List Term) → none ∉ machines σ ts →
    ((∀ u ∈ collectedAll ts, u.doit σ = u.machine σ) ↔ RepresentedAll σ ts)
  | [], _ => iff_of_true (fun _ hu => absurd hu List.not_mem_nil) trivial
  | t :: ts, hts => by
    obtain ⟨hhead, htail⟩ := not_or.1 (mt List.mem_cons.2 hts)
    obtain ⟨m, hm⟩ := Option.ne_none_iff_exists'.1 (Ne.symm hhead)
    rw [collectedAll, List.forall_mem_append, RepresentedAll, doit_collected_iff t hm,
      doits_collected_iff ts htail]

theorem doits_eq_machines : {ts : List Term} →
    (∀ u ∈ collectedAll ts, u.doit σ = u.machine σ) → doits σ ts = machines σ ts
  | [], _ => rfl
  | t :: ts, hts => by
    obtain ⟨hhead, htail⟩ := List.forall_mem_append.1 hts
    rw [doits, machines, hhead t (collected_self t), doits_eq_machines htail]
end

/-- **A term of represented nodes is translated to its machine value**, and no condition on the
nodes is weaker: the term and all its subterms are translated to their machine values exactly when
every node is represented. -/
theorem doit_eq_machine_iff {t : Term} {m : Meaning} (hm : t.machine σ = some m) :
    (t.Represented σ → t.doit σ = some m) ∧
      ((∀ u ∈ t.collected, u.doit σ = u.machine σ) ↔ t.Represented σ) := by
  refine ⟨fun hrepresented => ?_, doit_collected_iff t hm⟩
  rw [← hm]
  exact (doit_collected_iff t hm).2 hrepresented t (collected_self t)

end Term

/-- Every variable holds the same number. -/
def MachineValuation.constant (k : ℕ) : MachineValuation :=
  ⟨fun w _ => BitVec.ofNat w k, fun _ => false⟩

/-- The term `x op y` of a type. -/
def xOpY (type : Ty) (op : ArithType) (y : ℤ) : Term :=
  .mk 0 (.binary op) type "" [.mk 0 (.argument 0 .any) type "x" [],
    .mk 0 (.opaqueIntConstant y) type "" []]

/-- A small unsigned number is divided as the machine does. -/
theorem doit_eq_machine_division :
    (xOpY (.integer 8 .unsigned) .div 3).doit (.constant 100) = some (.bv 8 33) := by
  have hm : (xOpY (.integer 8 .unsigned) .div 3).machine (.constant 100) = some (.bv 8 33) := rfl
  refine (Term.doit_eq_machine_iff hm).1 ⟨?_, ⟨trivial, trivial⟩, ⟨trivial, trivial⟩, trivial⟩
  have hsmall : (100#8).msb = false ∧ (100#8).toNat + (3#8).toNat < 2 ^ 8 := by decide
  exact fun _ _ => Or.inr (Or.inr hsmall)

/-- **A negative number loses its sign in an arithmetic shift.** -/
theorem ashr_is_logical :
    ¬ ∀ (σ : MachineValuation) (t : Term) (m : Meaning),
      t.machine σ = some m → t.doit σ = some m := by
  intro hclaim
  have hshift := hclaim (.constant 128) (xOpY (.integer 8 .signed) .ashr 1) (.bv 8 192) rfl
  exact absurd hshift (by decide)

end Borealis
