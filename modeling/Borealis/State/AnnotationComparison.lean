import Borealis.Codegen.CType
import Borealis.SMT.TermTranslation
import Mathlib.Tactic.Linarith
import Mathlib.Tactic.NormNum
import Mathlib.Tactic.Positivity
import Mathlib.Tactic.Push
import Mathlib.Tactic.Ring

/-!
# Comparisons in annotations

`AnnotationMaterializer::transformCmpTerm` makes the comparison of two variables unsigned if their
common C type is, and the translation to the solver extends both to the larger width, with their
signs.  C compares them after the integer promotions and the usual arithmetic conversions.

## Strategy

Both comparisons are comparisons of two integers.  The integer that the solver sees of an operand
is the one that C compares, unless the operand is misread (`Misread`), and then the other one is
not.  A misread operand changes the result if the other operand lies between the two integers
(`Separates`).
-/

namespace Borealis

/-- The comparison operators of annotations. -/
inductive ComparisonOp where
  | eq | neq | lt | le | gt | ge
deriving DecidableEq, Repr

namespace ComparisonOp

/-- The opcode of the comparison in the parsed annotation. -/
def condition : ComparisonOp → ConditionType
  | eq => .eq
  | neq => .neq
  | lt => .lt
  | le => .le
  | gt => .gt
  | ge => .ge

/-- The comparison of two integers. -/
def holds (op : ComparisonOp) (a b : ℤ) : Bool :=
  match op with
  | eq => decide (a = b)
  | neq => decide (a ≠ b)
  | lt => decide (a < b)
  | le => decide (a ≤ b)
  | gt => decide (b < a)
  | ge => decide (b ≤ a)

/-- The comparison with its operands exchanged. -/
def flip : ComparisonOp → ComparisonOp
  | eq => eq
  | neq => neq
  | lt => gt
  | le => ge
  | gt => lt
  | ge => le

theorem holds_flip (op : ComparisonOp) (a b : ℤ) : op.flip.holds b a = op.holds a b := by
  cases op <;> simp [flip, holds, eq_comm]

/-- `v` tells `a` from `b` as the left operand. -/
def Separates (op : ComparisonOp) (a b v : ℤ) : Prop :=
  match op with
  | eq | neq => v = a ∨ v = b
  | lt | ge => min a b < v ∧ v ≤ max a b
  | le | gt => min a b ≤ v ∧ v < max a b

theorem holds_eq_iff (op : ComparisonOp) {a b : ℤ} (hne : a ≠ b) (v : ℤ) :
    op.holds a v = op.holds b v ↔ ¬ op.Separates a b v := by
  cases op <;> simp only [holds, Separates, decide_eq_decide] <;> omega

end ComparisonOp

/-! ## The annotation -/

/-- The opcode that `AnnotationMaterializer::transformCmpTerm` gives a comparison of operands of
these C types. -/
def transformCmpTerm (op : ConditionType) (lhvt rhvt : Option CType) : ConditionType :=
  if (CType.commonType lhvt rhvt).map CType.getSignedness = some .unsigned then op.forceUnsigned
  else op

/-- The comparison of two variables, materialized and translated to the solver. -/
def annotationComparison (op : ComparisonOp) (lhvt rhvt : CType) {m n : ℕ} (x : BitVec m)
    (y : BitVec n) : Option Meaning :=
  SMT.cmpTerm (transformCmpTerm op.condition (some lhvt) (some rhvt)) (.bv m x) (.bv n y)

/-! ## C -/

/-- A C integer type. -/
structure IntType where
  width : ℕ
  isSigned : Bool
deriving DecidableEq, Repr

namespace IntType

/-- The signedness that the debug information gives. -/
def signedness (T : IntType) : Signedness :=
  if T.isSigned then .signed else .unsigned

/-- The value of a variable of the type. -/
def value (T : IntType) (x : BitVec T.width) : ℤ :=
  if T.isSigned then x.toInt else x.toNat

/-- The integer promotions: a type narrower than `int` becomes `int`, which has 32 bits and all of
its values. -/
def promote (T : IntType) : IntType :=
  if T.width < 32 then ⟨32, true⟩ else T

/-- The usual arithmetic conversions of two promoted types. -/
def common (S T : IntType) : IntType :=
  if S.isSigned = T.isSigned then ⟨max S.width T.width, S.isSigned⟩
  else if S.isSigned then if S.width ≤ T.width then T else S
  else if T.width ≤ S.width then S else T

/-- The conversion of a value to the type. -/
def convert (T : IntType) (v : ℤ) : ℤ :=
  T.value (BitVec.ofInt T.width v)

end IntType

/-- The comparison in C. -/
def cComparison (op : ComparisonOp) (S T : IntType) (x : BitVec S.width) (y : BitVec T.width) :
    Bool :=
  let C := S.promote.common T.promote
  op.holds (C.convert (S.value x)) (C.convert (T.value y))

/-! ## What the solver sees of an operand -/

/-- The common C type is unsigned. -/
def IntType.mergedUnsigned (S T : IntType) : Bool :=
  if T.width < S.width then !S.isSigned
  else if S.width < T.width then !T.isSigned
  else !S.isSigned || !T.isSigned

theorem IntType.transformCmpTerm_eq {S T : IntType} {lhvt rhvt : CType} {lname rname : String}
    (hl : lhvt.stripAllAliasing = .integer lname S.width S.signedness)
    (hr : rhvt.stripAllAliasing = .integer rname T.width T.signedness) (op : ConditionType) :
    transformCmpTerm op (some lhvt) (some rhvt) =
      if S.mergedUnsigned T then op.forceUnsigned else op := by
  have hknown : ∀ T : IntType, T.signedness ≠ .unknown := by
    intro T
    unfold signedness
    split <;> simp
  unfold transformCmpTerm
  rw [CType.getSignedness_commonType hl hr (hknown S) (hknown T)]
  obtain ⟨m, s⟩ := S
  obtain ⟨n, t⟩ := T
  cases s <;> cases t <;> simp [mergedUnsigned, signedness]
  grind

/-- An operand as the solver compares it: extended with its sign, and then signed or unsigned. -/
def seen (unsigned : Bool) (n : ℕ) {m : ℕ} (x : BitVec m) : ℤ :=
  if unsigned then (x.signExtend n).toNat else (x.signExtend n).toInt

/-- The comparison of the solver is one of integers. -/
theorem cmpTerm_eq (op : ComparisonOp) (unsigned : Bool) {m n : ℕ} (x : BitVec m) (y : BitVec n) :
    SMT.cmpTerm (if unsigned then op.condition.forceUnsigned else op.condition) (.bv m x)
        (.bv n y) =
      some (.bool (op.holds (seen unsigned (max m n) x) (seen unsigned (max m n) y))) := by
  cases unsigned with
  | false =>
      cases op <;>
        simp [SMT.cmpTerm, SMT.bvComparison, SMT.binary, seen, ComparisonOp.holds,
          ComparisonOp.condition, BitVec.slt_eq_decide, BitVec.sle_eq_decide, BitVec.toInt_inj]
  | true =>
      cases op <;>
        simp [SMT.cmpTerm, SMT.bvComparison, SMT.binary, seen, ComparisonOp.holds,
          ComparisonOp.condition, ConditionType.forceUnsigned, BitVec.ult_eq_decide,
          BitVec.ule_eq_decide, BitVec.toNat_inj]

section Operand

variable {m n : ℕ}

theorem toInt_eq_msb (x : BitVec m) :
    x.toInt = if x.msb then (x.toNat : ℤ) - 2 ^ m else x.toNat := by
  rw [BitVec.toInt_eq_msb_cond]
  push_cast
  rfl

theorem seen_unsigned (hmn : m ≤ n) (x : BitVec m) :
    seen true n x = (x.toNat : ℤ) + if x.msb then (2 : ℤ) ^ n - 2 ^ m else 0 := by
  have hpow : 2 ^ m ≤ 2 ^ n := Nat.pow_le_pow_right (by norm_num) hmn
  have hlt := x.isLt
  simp only [seen, if_true, BitVec.toNat_signExtend, BitVec.toNat_setWidth,
    Nat.mod_eq_of_lt (hlt.trans_le hpow)]
  split
  · push_cast [Nat.cast_sub hpow]
    ring
  · simp

theorem seen_signed (hmn : m ≤ n) (x : BitVec m) : seen false n x = x.toInt := by
  simp only [seen, Bool.false_eq_true, if_false, BitVec.toInt_signExtend_of_le hmn]

end Operand

namespace IntType

/-- A signed type holds the values that need one bit less. -/
theorem convert_signed {C : IntType} (hC : C.isSigned = true) {v : ℤ} {w : ℕ} (hw : w < C.width)
    (hlo : -2 ^ w ≤ v) (hhi : v < 2 ^ w) : C.convert v = v := by
  have hpow : (2 : ℤ) ^ w ≤ 2 ^ (C.width - 1) := by
    exact_mod_cast Nat.pow_le_pow_right (by norm_num) (Nat.le_sub_one_of_lt hw)
  simp only [convert, value, hC, if_true]
  exact BitVec.toInt_ofInt_eq_self (by omega) (by linarith) (by linarith)

/-- An unsigned type holds a value modulo its size. -/
theorem convert_unsigned {C : IntType} (hC : C.isSigned = false) {v : ℤ}
    (hlo : -2 ^ C.width ≤ v) (hhi : v < 2 ^ C.width) :
    C.convert v = if v < 0 then v + 2 ^ C.width else v := by
  have hpos : (0 : ℤ) < 2 ^ C.width := by positivity
  simp only [convert, value, hC, Bool.false_eq_true, if_false, BitVec.toNat_ofInt]
  push_cast
  rw [Int.toNat_of_nonneg (Int.emod_nonneg _ hpos.ne')]
  split
  · rw [← Int.add_emod_right]
    exact Int.emod_eq_of_lt (by linarith) (by linarith)
  · exact Int.emod_eq_of_lt (by linarith) (by linarith)

/-- The common type of two operands is signed and has the values of both, or it is as wide as the
wider operand, which is unsigned and no narrower than `int`. -/
theorem common_cases (S T : IntType) :
    32 ≤ (S.promote.common T.promote).width ∧
      ((S.promote.common T.promote).isSigned = true ∧
          (S.isSigned = false → S.width < (S.promote.common T.promote).width) ∧
          (T.isSigned = false → T.width < (S.promote.common T.promote).width) ∧
          S.width ≤ (S.promote.common T.promote).width ∧
          T.width ≤ (S.promote.common T.promote).width ∧
          (S.mergedUnsigned T = true → max S.width T.width < 32) ∨
        (S.promote.common T.promote).isSigned = false ∧
          (S.promote.common T.promote).width = max S.width T.width ∧
          S.mergedUnsigned T = true) := by
  obtain ⟨m, s⟩ := S
  obtain ⟨n, t⟩ := T
  cases s <;> cases t <;> simp only [promote, common, mergedUnsigned] <;> grind

theorem common_comm (S T : IntType) : S.common T = T.common S := by
  obtain ⟨m, s⟩ := S
  obtain ⟨n, t⟩ := T
  cases s <;> cases t <;> simp only [common] <;> grind

theorem mergedUnsigned_comm (S T : IntType) : S.mergedUnsigned T = T.mergedUnsigned S := by
  obtain ⟨m, s⟩ := S
  obtain ⟨n, t⟩ := T
  cases s <;> cases t <;> simp only [mergedUnsigned] <;> grind

/-- The solver compares another integer than C does: the operand is unsigned and narrower than the
other one, and its top bit is extended as a sign; or it is negative and the other one is unsigned
and no narrower, but narrower than `int`, and it is not promoted. -/
def Misread (S T : IntType) (x : BitVec S.width) : Prop :=
  x.msb = true ∧
    (S.isSigned = false ∧ S.width < T.width ∨
      S.isSigned = true ∧ T.isSigned = false ∧ S.width ≤ T.width ∧ T.width < 32)

instance (S T : IntType) (x : BitVec S.width) : Decidable (S.Misread T x) :=
  inferInstanceAs (Decidable (_ ∧ _))

/-- The integer that the solver compares in place of a misread operand. -/
def readAs (S T : IntType) (x : BitVec S.width) : ℤ :=
  if S.isSigned then S.value x + 2 ^ T.width
  else if T.isSigned then S.value x - 2 ^ S.width
  else S.value x + 2 ^ T.width - 2 ^ S.width

theorem readAs_ne (S T : IntType) {x : BitVec S.width} (hx : S.Misread T x) :
    S.value x ≠ S.readAs T x := by
  have hS : (0 : ℤ) < 2 ^ S.width := by positivity
  have hT : (0 : ℤ) < 2 ^ T.width := by positivity
  rcases hx with ⟨-, ⟨hs, hlt⟩ | ⟨hs, -⟩⟩
  · have hpow : (2 : ℤ) ^ S.width < 2 ^ T.width := by
      exact_mod_cast Nat.pow_lt_pow_right (by norm_num) hlt
    simp only [readAs, hs, Bool.false_eq_true, if_false]
    split <;> linarith
  · simp only [readAs, hs, if_true]
    linarith

/-- At most one operand is misread. -/
theorem Misread.unique {S T : IntType} {x : BitVec S.width} {y : BitVec T.width}
    (hx : S.Misread T x) : ¬ T.Misread S y := by
  rintro ⟨-, hy⟩
  rcases hx with ⟨-, ⟨hs, hlt⟩ | ⟨hs, ht, hle, -⟩⟩
  · rcases hy with ⟨-, hlt'⟩ | ⟨-, -, hle, -⟩ <;> omega
  · rcases hy with ⟨-, hlt⟩ | ⟨ht', -⟩
    · omega
    · simp [ht] at ht'

theorem value_bounds (S : IntType) (x : BitVec S.width) :
    -2 ^ (S.width - 1) ≤ S.value x ∧ S.value x < 2 ^ S.width ∧
      (S.isSigned = true → S.value x < 2 ^ (S.width - 1)) ∧
      (S.isSigned = false → 0 ≤ S.value x) := by
  have hpos : (0 : ℤ) < 2 ^ (S.width - 1) := by positivity
  have hpow : (2 : ℤ) ^ (S.width - 1) ≤ 2 ^ S.width := by
    exact_mod_cast Nat.pow_le_pow_right (by norm_num) (Nat.sub_le _ _)
  have hnat : (x.toNat : ℤ) < 2 ^ S.width := by exact_mod_cast x.isLt
  cases hs : S.isSigned with
  | true =>
      have hlo := BitVec.le_toInt x
      have hhi := BitVec.toInt_lt (x := x)
      simp only [value, hs, if_true]
      exact ⟨hlo, hhi.trans_le hpow, fun _ => hhi, by simp⟩
  | false =>
      simp only [value, hs, Bool.false_eq_true, if_false]
      exact ⟨by omega, hnat, by simp, fun _ => by omega⟩

/-- A signed common type leaves the operand as it is. -/
theorem convert_value_of_signed {S C : IntType} (hC : C.isSigned = true) (hbits : 32 ≤ C.width)
    (hunsigned : S.isSigned = false → S.width < C.width) (hle : S.width ≤ C.width)
    (x : BitVec S.width) : C.convert (S.value x) = S.value x := by
  obtain ⟨hlo, hhi, hhi', hlo'⟩ := S.value_bounds x
  cases hs : S.isSigned with
  | true => exact convert_signed hC (w := S.width - 1) (by omega) hlo (hhi' hs)
  | false =>
      have hpos : (0 : ℤ) < 2 ^ S.width := by positivity
      exact convert_signed hC (hunsigned hs) (by linarith [hlo' hs]) hhi

/-- An unsigned common type adds its size to a negative operand. -/
theorem convert_value_of_unsigned {S C : IntType} (hC : C.isSigned = false)
    (hle : S.width ≤ C.width) (x : BitVec S.width) :
    C.convert (S.value x) = if S.value x < 0 then S.value x + 2 ^ C.width else S.value x := by
  obtain ⟨hlo, hhi, -, -⟩ := S.value_bounds x
  have hpow : (2 : ℤ) ^ S.width ≤ 2 ^ C.width := by
    exact_mod_cast Nat.pow_le_pow_right (by norm_num) hle
  have hpow' : (2 : ℤ) ^ (S.width - 1) ≤ 2 ^ C.width := by
    exact_mod_cast Nat.pow_le_pow_right (by norm_num) ((Nat.sub_le _ _).trans hle)
  exact convert_unsigned hC (by linarith) (by linarith)

/-- The top bit of a signed value is its sign. -/
theorem value_signed {S : IntType} (hs : S.isSigned = true) (x : BitVec S.width) :
    S.value x = (x.toNat : ℤ) - (if x.msb then 2 ^ S.width else 0) ∧
      (S.value x < 0 ↔ x.msb = true) := by
  have hlt : (x.toNat : ℤ) < 2 ^ S.width := by exact_mod_cast x.isLt
  simp only [value, hs, if_true, toInt_eq_msb]
  split <;> simp_all

theorem value_unsigned {S : IntType} (hs : S.isSigned = false) (x : BitVec S.width) :
    S.value x = x.toNat := by
  simp only [value, hs, Bool.false_eq_true, if_false]

/-- **The solver compares the integer that C compares**, unless the operand is misread. -/
theorem seen_eq (S T : IntType) (x : BitVec S.width) :
    (¬ S.Misread T x →
        seen (S.mergedUnsigned T) (max S.width T.width) x =
          (S.promote.common T.promote).convert (S.value x)) ∧
      (S.Misread T x →
        seen (S.mergedUnsigned T) (max S.width T.width) x = S.readAs T x ∧
          (S.promote.common T.promote).convert (S.value x) = S.value x ∧
          ∀ y : BitVec T.width,
            (S.promote.common T.promote).convert (T.value y) = T.value y) := by
  have hmx : S.width ≤ max S.width T.width := le_max_left _ _
  obtain ⟨hbits, ⟨hC, hSw, hTw, hSle, hTle, hmerged⟩ | ⟨hC, hCw, hmerged⟩⟩ := common_cases S T
  · rw [convert_value_of_signed hC hbits hSw hSle x]
    have hy := fun y => convert_value_of_signed hC hbits hTw hTle y
    have hread : seen (S.mergedUnsigned T) (max S.width T.width) x =
        if S.Misread T x then S.readAs T x else S.value x := by
      cases hm : S.mergedUnsigned T with
      | false =>
          rw [seen_signed hmx, toInt_eq_msb]
          simp only [mergedUnsigned] at hm
          cases hs : S.isSigned with
          | true => grind [Misread, value_signed hs x]
          | false => grind [Misread, readAs, value_unsigned hs x]
      | true =>
          have hwidth := hmerged hm
          rw [seen_unsigned hmx]
          simp only [mergedUnsigned] at hm
          cases hs : S.isSigned with
          | true => grind [Misread, readAs, value_signed hs x]
          | false => grind [Misread, readAs, value_unsigned hs x]
    rw [hread]
    exact ⟨fun h => if_neg h, fun h => ⟨if_pos h, rfl, hy⟩⟩
  · have hx := convert_value_of_unsigned hC (hmx.trans_eq hCw.symm) x
    have hy := fun y => convert_value_of_unsigned (S := T) hC
      ((le_max_right _ _).trans_eq hCw.symm) y
    have hx0 := (S.value_bounds x).2.2.2
    have hy0 := fun y => (T.value_bounds y).2.2.2
    rw [hx, hCw, hmerged, seen_unsigned hmx]
    simp only [mergedUnsigned] at hmerged
    cases hs : S.isSigned with
    | true =>
        have hmis : ¬ S.Misread T x := by grind [Misread]
        exact ⟨fun _ => by grind [value_signed hs x], fun h => absurd h hmis⟩
    | false =>
        rw [if_neg (hx0 hs).not_gt]
        refine ⟨fun h => by grind [Misread, value_unsigned hs x], fun h => ?_⟩
        have hT : T.isSigned = false ∧ S.width < T.width := by grind [Misread]
        refine ⟨by grind [Misread, readAs, value_unsigned hs x], rfl, fun y => ?_⟩
        rw [hy y, if_neg (hy0 y hT.1).not_gt]

end IntType

/-! ## The comparisons agree -/

/-- **An annotation compares two variables as C does** exactly if no misread operand is told from
its value by the other operand. -/
theorem annotationComparison_eq_iff (op : ComparisonOp) {S T : IntType} {lhvt rhvt : CType}
    {lname rname : String} (hl : lhvt.stripAllAliasing = .integer lname S.width S.signedness)
    (hr : rhvt.stripAllAliasing = .integer rname T.width T.signedness) (x : BitVec S.width)
    (y : BitVec T.width) :
    annotationComparison op lhvt rhvt x y = some (.bool (cComparison op S T x y)) ↔
      ¬ (S.Misread T x ∧ op.Separates (S.value x) (S.readAs T x) (T.value y)) ∧
        ¬ (T.Misread S y ∧ op.flip.Separates (T.value y) (T.readAs S y) (S.value x)) := by
  obtain ⟨hx, hx'⟩ := S.seen_eq T x
  obtain ⟨hy, hy'⟩ := T.seen_eq S y
  rw [IntType.mergedUnsigned_comm, max_comm, IntType.common_comm] at hy hy'
  rw [annotationComparison, IntType.transformCmpTerm_eq hl hr, cmpTerm_eq]
  simp only [cComparison, Option.some.injEq, Meaning.bool.injEq]
  by_cases hmx : S.Misread T x
  · -- the left operand is misread, and C compares the values
    have hmy : ¬ T.Misread S y := hmx.unique
    obtain ⟨hseen, hvalue, hother⟩ := hx' hmx
    rw [hseen, hvalue, hy hmy, hother, eq_comm, ComparisonOp.holds_eq_iff op (S.readAs_ne T hmx)]
    simp [hmx, hmy]
  · by_cases hmy : T.Misread S y
    · obtain ⟨hseen, hvalue, hother⟩ := hy' hmy
      rw [hseen, hvalue, hx hmx, hother, ← op.holds_flip, ← op.holds_flip, eq_comm,
        ComparisonOp.holds_eq_iff op.flip (T.readAs_ne S hmy)]
      simp [hmx, hmy]
    · rw [hx hmx, hy hmy]
      simp [hmx, hmy]

/-- `int` and `unsigned`, where `-1` is compared as the greatest `unsigned`. -/
theorem annotationComparison_eq_int_unsigned :
    annotationComparison .lt (.integer "int" 32 .signed) (.integer "unsigned" 32 .unsigned)
        (BitVec.ofInt 32 (-1)) (1#32) =
      some (.bool (cComparison .lt ⟨32, true⟩ ⟨32, false⟩ (BitVec.ofInt 32 (-1)) (1#32))) :=
  (annotationComparison_eq_iff .lt (S := ⟨32, true⟩) (T := ⟨32, false⟩) rfl rfl _ _).mpr
    ⟨fun h => absurd h.1 (by decide), fun h => absurd h.1 (by decide)⟩

/-- An `unsigned char` of `200` is not equal to an `int` of `200`. -/
theorem annotationComparison_ne_c :
    ¬ ∀ (op : ComparisonOp) (S T : IntType) (lhvt rhvt : CType) (lname rname : String)
      (x : BitVec S.width) (y : BitVec T.width), S.width ≤ 64 → T.width ≤ 64 →
      lhvt.stripAllAliasing = .integer lname S.width S.signedness →
      rhvt.stripAllAliasing = .integer rname T.width T.signedness →
      annotationComparison op lhvt rhvt x y = some (.bool (cComparison op S T x y)) := by
  intro h
  exact absurd (h .eq ⟨8, false⟩ ⟨32, true⟩ (.integer "unsigned char" 8 .unsigned)
    (.integer "int" 32 .signed) _ _ (200#8) (200#32) (by decide) (by decide) rfl rfl) (by decide)

end Borealis
