import Borealis.SMT.TermTranslation

/-!
# Constants under wrappers

`TermUtils::stripCasts` with `getIntegerValue` and `getBoolValue`, and what the wrappers that are
stripped do to the value of a term: a cast changes the width, an axiom term has the value of its
left operand.  Stripping goes from an axiom term to its right operand, which is the axiom.

The value of a term is that of its translation.  What is neither a constant nor a wrapper has the
value that a valuation gives it.
-/

namespace Borealis

namespace TermUtils

open Term

/-! ## Reading a constant -/

mutual
/-- `stripCasts`: through casts to their operand, through axiom terms to their right operand. -/
def stripCasts : Term → Term
  | .mk obj cls type name subterms =>
    match cls, stripAll subterms with
    | .cast _, [rhv] => rhv
    | .axiomTerm, [_, rhv] => rhv
    | _, _ => .mk obj cls type name subterms

/-- The same for the subterms. -/
def stripAll : List Term → List Term
  | [] => []
  | t :: ts => stripCasts t :: stripAll ts
end

/-- `getIntegerValue`. -/
def getIntegerValue (t : Term) : Option ℤ :=
  match (stripCasts t).cls with
  | .opaqueIntConstant value => some value
  | _ => none

/-- `getBoolValue`. -/
def getBoolValue (t : Term) : Option Bool :=
  match (stripCasts t).cls with
  | .opaqueBoolConstant value => some value
  | _ => none

/-! ## The value of a term -/

/-- `sizeForType` of the types that an integer constant or a cast can have. -/
def sizeForType : Ty → Option ℕ
  | .integer w _ => some w
  | .pointer _ _ | .float => some 64
  | .bool => some 1
  | _ => none

/-- `getIntConst` of a constant, by the size of its type. -/
def intConstant (value : ℤ) (type : Ty) : Option Meaning :=
  (sizeForType type).map fun w =>
    if 32 < w then .bv w (BitVec.ofInt w value)
    else .bv w ((BitVec.ofInt 32 value).signExtend w)

/-- `forceCast` to the 64 bits of a pointer or a real: of a wider value 65 bits are left. -/
def forceCast {m : ℕ} (x : BitVec m) : Meaning :=
  if 64 = m then .bv m x
  else if 64 > m then .bv 64 (x.signExtend 64)
  else .bv (64 - 0 + 1) (x.extractLsb 64 0)

/-- `SMTImpl<Impl, CastTerm>::doit`, by the types of the term and of its operand. -/
def castDoit (signExtend : Bool) : Ty → Ty → Meaning → Option Meaning
  | .integer n _, .integer _ _, .bv _ x => some (.bv n (SMT.adaptTo n signExtend x))
  | .float, .float, .bv m x => some (.bv m x)
  | .float, .integer _ _, .bv _ x => some (forceCast x)
  | .integer n _, .float, .bv _ x => some (.bv n (SMT.adaptTo n false x))
  | .pointer _ _, .integer _ _, .bv _ x => some (forceCast x)
  | .integer n _, .pointer _ _, .bv _ x => some (.bv n (SMT.adaptTo n false x))
  | .pointer _ _, .pointer _ _, .bv m x => some (.bv m x)
  | _, _, _ => none

mutual
/-- The value of a term, for a valuation of the terms that are neither constants nor wrappers. -/
def evaluate (valuation : Term → Option Meaning) : Term → Option Meaning
  | .mk obj cls type name subterms =>
    match cls, evaluateAll valuation subterms with
    | .opaqueIntConstant value, _ => intConstant value type
    | .opaqueBoolConstant value, _ => some (.bool value)
    | .cast signExtend, [some rhv] =>
      ((subterms.map getType).head?).bind fun rt => castDoit signExtend type rt rhv
    | .cast _, _ => none
    | .axiomTerm, [some lhv, some _] => some lhv
    | .axiomTerm, _ => none
    | _, _ => valuation (.mk obj cls type name subterms)

/-- The same for the subterms. -/
def evaluateAll (valuation : Term → Option Meaning) : List Term → List (Option Meaning)
  | [] => []
  | t :: ts => evaluate valuation t :: evaluateAll valuation ts
end

/-- The number as a value of a type. -/
def ofType (type : Ty) (value : ℤ) : Option Meaning :=
  (sizeForType type).map fun w => .bv w (BitVec.ofInt w value)

/-- What is read from a term is its value, under every valuation. -/
def ReadsRight (t : Term) : Prop :=
  (∀ value, getIntegerValue t = some value → ∀ valuation, ∃ number,
    ofType t.getType value = some number ∧ evaluate valuation t = some number) ∧
  (∀ value, getBoolValue t = some value → ∀ valuation,
    evaluate valuation t = some (.bool value))

/-! ## Casts of a constant -/

/-- The width of a cast to one type of a value of another type and width, and whether it is extended
with its sign. -/
def castShape (signExtend : Bool) (m : ℕ) : Ty → Ty → Option (ℕ × Bool)
  | .integer n _, .integer _ _ => some (n, signExtend)
  | .float, .float => some (m, false)
  | .float, .integer _ _ => some (if m ≤ 64 then 64 else 65, true)
  | .integer n _, .float => some (n, false)
  | .pointer _ _, .integer _ _ => some (if m ≤ 64 then 64 else 65, true)
  | .integer n _, .pointer _ _ => some (n, false)
  | .pointer _ _, .pointer _ _ => some (m, false)
  | _, _ => none

/-- The number, cut to `m` bits and extended to `n`, is the number cut to `n` bits. -/
def Extends (sign : Bool) (value : ℤ) (m n : ℕ) : Prop :=
  SMT.adaptTo n sign (BitVec.ofInt m value) = BitVec.ofInt n value

instance (sign : Bool) (value : ℤ) (m n : ℕ) : Decidable (Extends sign value m n) := by
  unfold Extends
  infer_instance

/-- A chain of casts over a constant. -/
inductive CastsOf (constant : Term) : Term → Prop
  | self : CastsOf constant constant
  | cast (obj : ℕ) (signExtend : Bool) (type : Ty) (name : String) {rhv : Term}
      (h : CastsOf constant rhv) :
      CastsOf constant (.mk obj (.cast signExtend) type name [rhv])

mutual
/-- The width of an integer constant under casts. -/
def chainWidth : Term → Option ℕ
  | .mk _ cls type _ subterms =>
    match cls, chainWidths subterms with
    | .opaqueIntConstant _, _ => sizeForType type
    | .cast signExtend, [some m] =>
      ((subterms.map getType).head?).bind fun rt => (castShape signExtend m type rt).map Prod.fst
    | _, _ => none

/-- The same for the subterms. -/
def chainWidths : List Term → List (Option ℕ)
  | [] => []
  | t :: ts => chainWidth t :: chainWidths ts
end

mutual
/-- The casts over a constant keep its lowest `n` bits: a cast that widens gets all bits of its
operand right, and adds those that the constant has. -/
def Keeps (value : ℤ) : Term → ℕ → Prop
  | .mk _ cls type _ subterms, n =>
    match cls, keepsAll value subterms, chainWidths subterms, subterms.map getType with
    | .opaqueIntConstant _, _, _, _ => True
    | .cast signExtend, [keeps], [some m], [rt] =>
      ∃ shape, castShape signExtend m type rt = some shape ∧
        if n ≤ m then keeps n else keeps m ∧ Extends shape.2 value m n
    | _, _, _, _ => False

/-- The same for the subterms. -/
def keepsAll (value : ℤ) : List Term → List (ℕ → Prop)
  | [] => []
  | t :: ts => Keeps value t :: keepsAll value ts
end

/-- The casts over a constant do not change it: those of an integer end at the width of the type of
the term and keep all its bits, a boolean has none. -/
def Unchanged (constant t : Term) : Prop :=
  (∀ value, constant.cls = .opaqueIntConstant value →
    ∃ w, sizeForType t.getType = some w ∧ chainWidth t = some w ∧ Keeps value t w) ∧
  (∀ value, constant.cls = .opaqueBoolConstant value → t = constant)

/-! ## Widths -/

section Widths

variable {m n k : ℕ}

/-- Cutting after a change of width is changing to the smaller width at once. -/
theorem setWidth_adaptTo (sign : Bool) (x : BitVec m) (h : n ≤ k) :
    (SMT.adaptTo k sign x).setWidth n = SMT.adaptTo n sign x := by
  unfold SMT.adaptTo
  apply BitVec.eq_of_getLsbD_eq
  intro i hi
  cases sign with
  | false =>
      rw [if_neg Bool.false_ne_true, if_neg Bool.false_ne_true, ite_self, ite_self,
        BitVec.setWidth_setWidth_of_le _ h]
  | true =>
      rw [if_pos rfl, if_pos rfl]
      split <;> split <;> simp only [BitVec.getLsbD_setWidth, BitVec.getLsbD_signExtend, hi,
        decide_true, Bool.true_and]
      · rw [decide_eq_true (by omega), Bool.true_and]
      · rw [decide_eq_true (by omega), if_pos (by omega), Bool.true_and]
      · omega
      · rw [decide_eq_true (by omega), Bool.true_and]

theorem adaptTo_of_le (sign : Bool) (x : BitVec m) (h : n ≤ m) :
    SMT.adaptTo n sign x = x.setWidth n := by
  unfold SMT.adaptTo
  rw [if_neg (Nat.not_lt_of_le h)]

/-- The lowest bits of a value after a cast. -/
theorem setWidth_adaptTo_eq_ofInt_iff (sign : Bool) (x : BitVec m) (value : ℤ) (h : n ≤ k) :
    (SMT.adaptTo k sign x).setWidth n = BitVec.ofInt n value ↔
      if n ≤ m then x.setWidth n = BitVec.ofInt n value
      else x.setWidth m = BitVec.ofInt m value ∧ Extends sign value m n := by
  rw [setWidth_adaptTo sign x h, BitVec.setWidth_eq]
  split
  · next hle => rw [adaptTo_of_le sign x hle]
  · next hlt =>
      unfold Extends
      constructor
      · intro heq
        -- the operand is what is left of the result
        have hx : x = BitVec.ofInt m value := by
          have hcut := congrArg (BitVec.setWidth m) heq
          rwa [setWidth_adaptTo sign x (by omega), adaptTo_of_le sign x (le_refl m),
            BitVec.setWidth_eq, setWidth_ofInt_of_le (by omega)] at hcut
        exact ⟨hx, hx ▸ heq⟩
      · intro hboth
        rw [hboth.1]
        exact hboth.2

end Widths

/-- A cast of a bit vector, by the shape of the cast. -/
theorem castDoit_bv (signExtend : Bool) (lt rt : Ty) {m : ℕ} (x : BitVec m) :
    castDoit signExtend lt rt (.bv m x) =
      (castShape signExtend m lt rt).map fun shape =>
        .bv shape.1 (SMT.adaptTo shape.1 shape.2 x) := by
  have hsame : SMT.adaptTo m false x = x := by
    rw [adaptTo_of_le false x (le_refl m), BitVec.setWidth_eq]
  have hforce : forceCast x = Meaning.bv (if m ≤ 64 then 64 else 65)
      (SMT.adaptTo (if m ≤ 64 then 64 else 65) true x) := by
    unfold forceCast
    rcases Nat.lt_trichotomy m 64 with hlt | rfl | hgt
    · rw [if_neg (Nat.ne_of_gt hlt), if_pos hlt, if_pos (Nat.le_of_lt hlt), SMT.adaptTo, if_pos hlt,
        if_pos rfl]
    · rw [if_pos rfl, if_pos (le_refl 64), adaptTo_of_le true x (le_refl 64), BitVec.setWidth_eq]
    · rw [if_neg (Nat.ne_of_lt hgt), if_neg (Nat.not_lt_of_gt hgt), if_neg (Nat.not_le_of_gt hgt),
        adaptTo_of_le true x hgt, BitVec.setWidth_eq_extractLsb' hgt]
      rfl
  cases lt <;> cases rt <;>
    simp only [castDoit, castShape, Option.map_some, Option.map_none, hsame, hforce]

theorem castDoit_bool (signExtend : Bool) (lt rt : Ty) (b : Bool) :
    castDoit signExtend lt rt (.bool b) = none := by
  cases lt <;> cases rt <;> rfl

/-- The two ways in which a constant is made give the same. -/
theorem intConstant_eq_ofType (value : ℤ) (type : Ty) :
    intConstant value type = ofType type value := by
  unfold intConstant ofType
  refine congrArg (fun f => (sizeForType type).map f) (funext fun w => ?_)
  split
  · rfl
  · next hsmall =>
      have hle : w ≤ 32 := Nat.le_of_not_lt hsmall
      rw [BitVec.signExtend_eq_setWidth_of_le _ hle, setWidth_ofInt_of_le hle]

/-! ## Chains -/

section Chains

variable {constant t : Term} {value : ℤ} (valuation : Term → Option Meaning)

theorem evaluate_cast (obj : ℕ) (signExtend : Bool) (type : Ty) (name : String) (rhv : Term) :
    evaluate valuation (.mk obj (.cast signExtend) type name [rhv]) =
      (evaluate valuation rhv).bind (castDoit signExtend type rhv.getType) := by
  simp only [evaluate, evaluateAll]
  cases evaluate valuation rhv <;> rfl

theorem chainWidth_cast (obj : ℕ) (signExtend : Bool) (type : Ty) (name : String) (rhv : Term) :
    chainWidth (.mk obj (.cast signExtend) type name [rhv]) =
      (chainWidth rhv).bind fun m => (castShape signExtend m type rhv.getType).map Prod.fst := by
  simp only [chainWidth, chainWidths]
  cases chainWidth rhv <;> rfl

theorem keeps_cast {obj : ℕ} {signExtend : Bool} {type : Ty} {name : String} {rhv : Term} {m : ℕ}
    (hm : chainWidth rhv = some m) {shape : ℕ × Bool}
    (hshape : castShape signExtend m type rhv.getType = some shape) (n : ℕ) :
    Keeps value (.mk obj (.cast signExtend) type name [rhv]) n ↔
      if n ≤ m then Keeps value rhv n else Keeps value rhv m ∧ Extends shape.2 value m n := by
  simp only [Keeps, keepsAll, chainWidths, hm]
  change (∃ shape', castShape signExtend m type rhv.getType = some shape' ∧ _) ↔ _
  rw [hshape]
  constructor
  · intro h
    obtain ⟨shape', heq, h⟩ := h
    obtain rfl := Option.some.inj heq
    exact h
  · intro h
    exact ⟨shape, rfl, h⟩

/-- An integer constant under casts: without a width there is no value, and otherwise the value has
the bits of the constant that the casts keep. -/
theorem evaluate_of_castsOf (h : CastsOf constant t)
    (hconstant : constant.cls = .opaqueIntConstant value) :
    (chainWidth t = none ∧ evaluate valuation t = none) ∨
      ∃ w, chainWidth t = some w ∧ ∃ x : BitVec w, evaluate valuation t = some (.bv w x) ∧
        ∀ n ≤ w, x.setWidth n = BitVec.ofInt n value ↔ Keeps value t n := by
  induction h with
  | self =>
      obtain ⟨obj, cls, type, name, subterms⟩ := constant
      obtain rfl : cls = .opaqueIntConstant value := hconstant
      rw [chainWidth, evaluate, intConstant_eq_ofType]
      unfold ofType
      cases htype : sizeForType type with
      | none => exact Or.inl ⟨rfl, rfl⟩
      | some w =>
          refine Or.inr ⟨w, rfl, BitVec.ofInt w value, rfl, fun n hn => ?_⟩
          rw [setWidth_ofInt_of_le hn, Keeps]
          exact iff_of_true rfl trivial
  | @cast obj signExtend type name rhv h ih =>
      rw [evaluate_cast, chainWidth_cast]
      rcases ih with ⟨hwidth, hvalue⟩ | ⟨m, hwidth, x, hvalue, hkeeps⟩
      · rw [hwidth, hvalue]
        exact Or.inl ⟨rfl, rfl⟩
      · rw [hwidth, hvalue, Option.bind_some, Option.bind_some, castDoit_bv]
        cases hshape : castShape signExtend m type rhv.getType with
        | none => exact Or.inl ⟨rfl, rfl⟩
        | some shape =>
            refine Or.inr ⟨shape.1, rfl, _, rfl, fun n hn => ?_⟩
            rw [setWidth_adaptTo_eq_ofInt_iff shape.2 x value hn, keeps_cast hwidth hshape]
            split
            · next hle => exact hkeeps n hle
            · rw [hkeeps m (le_refl m)]

/-- A boolean constant has no value under a cast. -/
theorem evaluate_bool_of_castsOf (h : CastsOf constant t) {b : Bool}
    (hconstant : constant.cls = .opaqueBoolConstant b) :
    (t = constant ∧ evaluate valuation t = some (.bool b)) ∨
      (t ≠ constant ∧ evaluate valuation t = none) := by
  induction h with
  | self =>
      obtain ⟨obj, cls, type, name, subterms⟩ := constant
      obtain rfl : cls = .opaqueBoolConstant b := hconstant
      rw [evaluate]
      exact Or.inl ⟨rfl, rfl⟩
  | @cast obj signExtend type name rhv h ih =>
      have hne : Term.mk obj (.cast signExtend) type name [rhv] ≠ constant := by
        intro heq
        rw [← heq] at hconstant
        cases hconstant
      refine Or.inr ⟨hne, ?_⟩
      rw [evaluate_cast]
      rcases ih with ⟨-, hvalue⟩ | ⟨-, hvalue⟩
      · rw [hvalue, Option.bind_some, castDoit_bool]
      · rw [hvalue, Option.bind_none]

theorem getIntegerValue_eq_some_iff :
    getIntegerValue t = some value ↔ (stripCasts t).cls = .opaqueIntConstant value := by
  unfold getIntegerValue
  split
  · next v hv => rw [hv, Option.some_inj, TermClass.opaqueIntConstant.injEq]
  · next hne => exact iff_of_false (fun h => nomatch h) fun h => hne value h

theorem getBoolValue_eq_some_iff {b : Bool} :
    getBoolValue t = some b ↔ (stripCasts t).cls = .opaqueBoolConstant b := by
  unfold getBoolValue
  split
  · next v hv => rw [hv, Option.some_inj, TermClass.opaqueBoolConstant.injEq]
  · next hne => exact iff_of_false (fun h => nomatch h) fun h => hne b h

/-- An integer constant under casts is read right when they end at the width of the type and keep
all its bits. -/
theorem evaluate_eq_ofType_iff (h : CastsOf constant t)
    (hconstant : constant.cls = .opaqueIntConstant value) :
    (∃ number, ofType t.getType value = some number ∧ evaluate valuation t = some number) ↔
      ∃ w, sizeForType t.getType = some w ∧ chainWidth t = some w ∧ Keeps value t w := by
  have hchain := evaluate_of_castsOf valuation h hconstant
  constructor
  · intro hread
    obtain ⟨number, htype, hvalue⟩ := hread
    obtain ⟨w, hsize, rfl⟩ := Option.map_eq_some_iff.mp htype
    rcases hchain with ⟨-, hnone⟩ | ⟨w', hwidth, x, hx, hkeeps⟩
    · rw [hnone] at hvalue
      cases hvalue
    · rw [hx, Option.some_inj, Meaning.bv.injEq] at hvalue
      obtain ⟨rfl, hbits⟩ := hvalue
      refine ⟨w', hsize, hwidth, (hkeeps w' (le_refl w')).mp ?_⟩
      rw [BitVec.setWidth_eq]
      exact eq_of_heq hbits
  · intro hkept
    obtain ⟨w, hsize, hwidth, hkeep⟩ := hkept
    rcases hchain with ⟨hnone, -⟩ | ⟨w', hwidth', x, hx, hkeeps⟩
    · rw [hnone] at hwidth
      cases hwidth
    · obtain rfl := Option.some.inj (hwidth'.symm.trans hwidth)
      have hbits := (hkeeps w' (le_refl w')).mpr hkeep
      rw [BitVec.setWidth_eq] at hbits
      refine ⟨.bv w' (BitVec.ofInt w' value), ?_, ?_⟩
      · unfold ofType
        rw [hsize, Option.map_some]
      · rw [hx, hbits]

end Chains

/-! ## What is read is the value -/

/-- A boolean variable with the axiom that something is true reads as true, whatever its value. -/
theorem axiomTerm_not_readsRight :
    ¬ ReadsRight (.mk 0 .axiomTerm .bool "(x with axiom true)"
      [.mk 1 (.value false) .bool "x" [], .mk 2 (.opaqueBoolConstant true) .bool "true" []]) := by
  intro hread
  have hvalue := hread.2 true rfl fun _ => some (.bool false)
  cases hvalue

/-- A term whose wrappers are casts is read right when, and only when, they do not change the
constant.  The axiom terms are left out: what is read from one is a constant of its axiom. -/
theorem readsRight_iff {t : Term} (hcasts : CastsOf (stripCasts t) t) :
    ReadsRight t ↔ Unchanged (stripCasts t) t := by
  unfold ReadsRight Unchanged
  refine and_congr (forall_congr' fun value => ?_) (forall_congr' fun value => ?_)
  · rw [getIntegerValue_eq_some_iff]
    refine forall_congr' fun hconstant => ?_
    constructor
    · intro h
      exact (evaluate_eq_ofType_iff (fun _ => none) hcasts hconstant).mp (h _)
    · intro h valuation
      exact (evaluate_eq_ofType_iff valuation hcasts hconstant).mpr h
  · rw [getBoolValue_eq_some_iff]
    refine forall_congr' fun hconstant => ?_
    constructor
    · intro h
      rcases evaluate_bool_of_castsOf (fun _ => none) hcasts hconstant with ⟨heq, -⟩ | ⟨-, hnone⟩
      · exact heq
      · have hvalue := h fun _ => none
        rw [hnone] at hvalue
        cases hvalue
    · intro heq valuation
      rcases evaluate_bool_of_castsOf valuation hcasts hconstant with ⟨-, hvalue⟩ | ⟨hne, -⟩
      · exact hvalue
      · exact absurd heq hne

/-- A constant that fits in 16 bits, cut to them and extended again. -/
theorem readsRight_iff_fitting :
    ReadsRight (.mk 0 (.cast true) (.integer 64 .signed) "cast(+i64, cast(i16, 300))"
      [.mk 1 (.cast false) (.integer 16 .signed) "cast(i16, 300)"
        [.mk 2 (.opaqueIntConstant 300) (.integer 32 .signed) "300" []]]) := by
  apply (readsRight_iff (.cast _ _ _ _ (.cast _ _ _ _ .self))).mpr
  refine ⟨fun value h => ?_, fun value h => nomatch h⟩
  obtain rfl : value = 300 := (TermClass.opaqueIntConstant.inj h).symm
  refine ⟨64, rfl, rfl, (64, true), rfl, ?_⟩
  rw [if_neg (by decide)]
  refine ⟨⟨(16, false), rfl, ?_⟩, by decide⟩
  rw [if_pos (by decide)]
  exact trivial

end TermUtils

end Borealis
