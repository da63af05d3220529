import Borealis.State.ConstantPropagator
import Borealis.Term.StrippedConstants

/-!
# The shift of a GEP term

The two computations of the offset of a GEP term: the translation to the solver, which multiplies
each index by a size at the width of the index and extends the product afterwards, and `calcShift`,
which multiplies constants as 64-bit numbers.  Both walk down the type that the base points to.

An offset is a sum with one part for each index.  Each of the two is compared with the machine part
by part: the machine extends an index to the width of a pointer before it multiplies.

Sizes and offsets are in elements.  A type is written with the bodies of its records in place, and
what is neither an array nor a record is one element.
-/

namespace Borealis

namespace GepTerm

open TermUtils

/-! ## Types -/

/-- A type, by its arrays and records. -/
inductive Layout
  | elem
  | array (element : Layout) (size : Option ℕ)
  | record (fields : List Layout)

mutual
/-- `getTypeSizeInElems`: `TypeSizer` computes with 64 bits. -/
def Layout.getTypeSizeInElems : Layout → ℕ
  | .elem => 1
  | .array element size => element.getTypeSizeInElems * size.getD 0 % 2 ^ 64
  | .record fields =>
    let res := fieldSizes fields % 2 ^ 64
    if res ≠ 0 then res else 1

/-- The sizes of fields together. -/
def fieldSizes : List Layout → ℕ
  | [] => 0
  | field :: fields => field.getTypeSizeInElems + fieldSizes fields
end

/-- `getStructOffsetInElems`: the sum is an `unsigned`, which has 32 bits. -/
def getStructOffsetInElems (fields : List Layout) (idx : ℕ) : ℕ :=
  fieldSizes (fields.take idx) % 2 ^ 32

/-- `getAggregateElement`. -/
def getAggregateElement : Layout → Term → Option Layout
  | .record fields, idx =>
    match idx.cls with
    | .opaqueIntConstant index => if 0 ≤ index then fields[index.toNat]? else none
    | _ => none
  | .array element _, _ => some element
  | .elem, _ => none

/-! ## The translation -/

/-- An `AnyBitVector`. -/
abbrev Dyn := (w : ℕ) × BitVec w

/-- `+`. -/
def add (l r : Dyn) : Dyn :=
  ⟨max l.1 r.1, SMT.binary (α := BitVec) (fun _ x y => x + y) l.2 r.2⟩

/-- `*` with a number, which becomes a constant as wide as the other operand. -/
def mul (index : Dyn) (size : ℕ) : Dyn :=
  ⟨index.1, index.2 * BitVec.ofNat index.1 size⟩

variable (valuation : Term → Option Meaning)

/-- The translation of an index, which has to be a bit vector. -/
def indexValue (s : Term) : Option Dyn :=
  match evaluate valuation s with
  | some (.bv m x) => some ⟨m, x⟩
  | _ => none

/-- The loop of `SMTImpl<Impl, GepTerm>::doit` over the indices after the first one. -/
def smtWalk : Layout → List Term → Dyn → Option Dyn
  | _, [], shift => some shift
  | .record fields, s :: ss, shift =>
    match s.cls, getAggregateElement (.record fields) s with
    | .opaqueIntConstant index, some tp =>
      let offset := getStructOffsetInElems fields index.toNat
      smtWalk tp ss (add shift ⟨shift.1, BitVec.ofNat shift.1 offset⟩)
    | _, _ => none
  | .array element _, s :: ss, shift =>
    (indexValue valuation s).bind fun index =>
      smtWalk element ss (add shift (mul index element.getTypeSizeInElems))
  | .elem, _ :: _, _ => none

/-- An `OpaqueIntConstantTerm` with the value zero. -/
def isZero (s : Term) : Bool :=
  match s.cls with
  | .opaqueIntConstant value => value == 0
  | _ => false

/-- The shift in `SMTImpl<Impl, GepTerm>::doit`.  Without indices, and with zeros only, the base is
returned as it is. -/
def smtShift (pointed : Layout) (shifts : List Term) : Option Dyn :=
  if shifts.all isZero then some ⟨64, 0⟩
  else
    match shifts with
    | [] => none
    | h :: tail =>
      (indexValue valuation h).bind fun index =>
        smtWalk valuation pointed tail (add ⟨64, 0⟩ (mul index pointed.getTypeSizeInElems))

/-! ## The computation on constants -/

variable (FN : TermFactory)

/-- `TermBuilder * long long`. -/
def timesNumber (t : Term) (size : ℕ) : Term :=
  FN.getBinaryTerm .mul t (TermFactory.getIntTerm (BitVec.ofNat 64 size).toInt t.getType)

/-- `TermBuilder + long long`. -/
def plusNumber (t : Term) (offset : ℕ) : Term :=
  FN.getBinaryTerm .add t (TermFactory.getIntTerm (BitVec.ofNat 64 offset).toInt t.getType)

/-- The loop of `calcShift`. -/
def calcWalk : Layout → List Term → Term → Option Term
  | _, [], shift => some shift
  | .record fields, s :: ss, shift =>
    match s.cls, getAggregateElement (.record fields) s with
    | .opaqueIntConstant index, some tp =>
      calcWalk tp ss (plusNumber FN shift (getStructOffsetInElems fields index.toNat))
    | _, _ => none
  | .array element _, s :: ss, shift =>
    calcWalk element ss
      (FN.getBinaryTerm .add shift (timesNumber FN s element.getTypeSizeInElems))
  | .elem, _ :: _, _ => none

/-- `calcShift`. -/
def calcShift (pointed : Layout) : List Term → Option Term
  | [] => none
  | h :: tail =>
    let shift := TermFactory.getIntTerm 0 (.integer 64 .unsigned)
    let shift := FN.getBinaryTerm .add shift (timesNumber FN h pointed.getTypeSizeInElems)
    (calcWalk FN pointed tail shift).bind (ConstantPropagator.transform FN)

/-! ## The machine -/

/-- What an index adds to the offset: a multiple of a size, or the offset of a field. -/
inductive Part
  | scaled (index : Term) (size : ℕ)
  | field (offset : ℕ)

/-- The parts for the indices after the first one. -/
def partsOf : Layout → List Term → Option (List Part)
  | _, [] => some []
  | .record fields, s :: ss =>
    match s.cls, getAggregateElement (.record fields) s with
    | .opaqueIntConstant index, some tp =>
      (partsOf tp ss).map fun parts => .field (fieldSizes (fields.take index.toNat)) :: parts
    | _, _ => none
  | .array element _, s :: ss =>
    (partsOf element ss).map fun parts => .scaled s element.getTypeSizeInElems :: parts
  | .elem, _ :: _ => none

/-- What holds without indices, and of the parts of an index and further ones if it holds of the
further ones, holds of all parts. -/
theorem partsOf_induction {R : Layout → List Term → List Part → Prop}
    (nil : ∀ tp, R tp [] [])
    (array : ∀ element count s ss ps, R element ss ps →
      R (.array element count) (s :: ss) (.scaled s element.getTypeSizeInElems :: ps))
    (field : ∀ fields s ss index tp ps, s.cls = .opaqueIntConstant index →
      getAggregateElement (.record fields) s = some tp → R tp ss ps →
      R (.record fields) (s :: ss) (.field (fieldSizes (fields.take index.toNat)) :: ps))
    {tp : Layout} {ss : List Term} {ps : List Part} (h : partsOf tp ss = some ps) :
    R tp ss ps := by
  induction ss generalizing tp ps with
  | nil =>
      obtain rfl : [] = ps := by cases tp <;> exact Option.some.inj h
      exact nil tp
  | cons s ss ih =>
      cases tp with
      | elem => cases h
      | array element count =>
          obtain ⟨ps, hps, rfl⟩ := Option.map_eq_some_iff.mp h
          exact array element count s ss ps (ih hps)
      | record fields =>
          rw [partsOf] at h
          split at h
          · next index tp hcls htp =>
              obtain ⟨ps, hps, rfl⟩ := Option.map_eq_some_iff.mp h
              exact field fields s ss index tp ps hcls htp (ih hps)
          · cases h

/-- The parts of the offset: the first index counts values of the pointed type. -/
def parts (pointed : Layout) : List Term → Option (List Part)
  | [] => some []
  | h :: tail => (partsOf pointed tail).map fun parts =>
      .scaled h pointed.getTypeSizeInElems :: parts

/-- What a part is worth: the index as a signed number times the size, the offset of the field. -/
def Part.worth : Part → ℤ
  | .scaled s size => (indexValue valuation s).elim 0 fun index => index.2.toInt * size
  | .field offset => offset

/-- The index of a part has a value. -/
def Part.Valued : Part → Prop
  | .scaled s _ => ∃ index, indexValue valuation s = some index
  | .field _ => True

/-- The offset in the machine, modulo the size of the address space. -/
def machineOffset (ps : List Part) : BitVec 64 :=
  BitVec.ofInt 64 (ps.map (Part.worth valuation)).sum

/-! ## Widths -/

section Widths

/-- The lowest 64 bits. -/
def low (d : Dyn) : BitVec 64 :=
  d.2.setWidth 64

theorem setWidth_signExtend_of_le {m n k : ℕ} (x : BitVec m) (h : n ≤ k) :
    (x.signExtend k).setWidth n = x.signExtend n := by
  apply BitVec.eq_of_getLsbD_eq
  intro i hi
  rw [BitVec.getLsbD_setWidth, BitVec.getLsbD_signExtend, BitVec.getLsbD_signExtend,
    decide_eq_true hi, decide_eq_true (by omega : i < k), Bool.true_and]

theorem low_add {l r : Dyn} (h : 64 ≤ l.1) : low (add l r) = low l + r.2.signExtend 64 := by
  have hmax : 64 ≤ max l.1 r.1 := h.trans (le_max_left _ _)
  calc low (add l r)
      = (l.2.signExtend (max l.1 r.1) + r.2.signExtend (max l.1 r.1)).setWidth 64 := rfl
    _ = (l.2.signExtend (max l.1 r.1)).setWidth 64 + (r.2.signExtend (max l.1 r.1)).setWidth 64 :=
        BitVec.setWidth_add _ _ hmax
    _ = l.2.signExtend 64 + r.2.signExtend 64 := by
        rw [setWidth_signExtend_of_le _ hmax, setWidth_signExtend_of_le _ hmax]
    _ = low l + r.2.signExtend 64 := by
        rw [BitVec.signExtend_eq_setWidth_of_le _ h]
        rfl

theorem mul_eq_ofInt (index : Dyn) (size : ℕ) :
    (mul index size).2 = BitVec.ofInt index.1 (index.2.toInt * size) := by
  change index.2 * BitVec.ofNat index.1 size = _
  rw [BitVec.ofInt_mul, BitVec.ofInt_toInt, BitVec.ofInt_natCast]

theorem ofInt_eq_ofInt_iff (y z : ℤ) :
    BitVec.ofInt 64 y = BitVec.ofInt 64 z ↔ (2 ^ 64 : ℤ) ∣ y - z := by
  rw [← BitVec.toInt_inj, BitVec.toInt_ofInt, BitVec.toInt_ofInt,
    Int.bmod_eq_bmod_iff_bmod_sub_eq_zero, ← Int.dvd_iff_bmod_eq_zero]
  norm_cast

/-- A number as a pattern of `m` bits, extended to 64 bits, is the number as a pattern of 64 bits
when the latter is one that `m` bits are enough for. -/
theorem signExtend_ofInt_eq_iff {m : ℕ} {z : ℤ} (hm : m = 0 → z = 0) :
    (BitVec.ofInt m z).signExtend 64 = BitVec.ofInt 64 z ↔
      64 ≤ m ∨ (-(2 ^ (m - 1) : ℤ) ≤ (BitVec.ofInt 64 z).toInt ∧
        (BitVec.ofInt 64 z).toInt < 2 ^ (m - 1)) := by
  rcases Nat.eq_zero_or_pos m with rfl | hpos
  · -- without bits there is only zero
    rw [hm rfl]
    exact iff_of_true rfl (Or.inr (by decide))
  rcases Nat.lt_or_ge m 64 with hlt | hge
  · have hcut : BitVec.ofInt m (BitVec.ofInt 64 z).toInt = BitVec.ofInt m z := by
      rw [← setWidth_ofInt_of_le (Nat.le_of_lt hlt) (BitVec.ofInt 64 z).toInt, BitVec.ofInt_toInt,
        setWidth_ofInt_of_le (Nat.le_of_lt hlt)]
    have hsame : (BitVec.ofInt m z).signExtend 64 = BitVec.ofInt 64 z ↔
        (BitVec.ofInt m z).toInt = (BitVec.ofInt 64 z).toInt := by
      rw [← BitVec.toInt_inj, BitVec.toInt_signExtend_of_le (Nat.le_of_lt hlt)]
    rw [hsame, ← hcut]
    generalize (BitVec.ofInt 64 z).toInt = y
    have hpow : (2 : ℤ) ^ (m - 1) = ((2 ^ (m - 1) : ℕ) : ℤ) := by push_cast; rfl
    constructor
    · intro heq
      refine Or.inr ?_
      have hle := BitVec.le_toInt (BitVec.ofInt m y)
      have hlt' := BitVec.toInt_lt (x := BitVec.ofInt m y)
      rw [heq] at hle hlt'
      exact ⟨hle, hlt'⟩
    · intro hbounds
      rcases hbounds with hge | ⟨hle, hlt'⟩
      · exact absurd hlt (Nat.not_lt_of_le hge)
      · exact BitVec.toInt_ofInt_eq_self hpos hle hlt'
  · refine iff_of_true ?_ (Or.inl hge)
    rw [BitVec.signExtend_eq_setWidth_of_le _ hge, setWidth_ofInt_of_le hge]

end Widths

/-! ## The parts of the two computations -/

/-- What the translation adds for a part. -/
def Part.smt : Part → BitVec 64
  | .scaled s size =>
    (indexValue valuation s).elim 0 fun index => (mul index size).2.signExtend 64
  | .field offset => BitVec.ofNat 64 (offset % 2 ^ 32)

/-- The number is that of a signed number of `m` bits, or of 64 bits if those are fewer. -/
def SignedBits (m : ℕ) (z : ℤ) : Prop :=
  64 ≤ m ∨ (-(2 ^ (m - 1) : ℤ) ≤ (BitVec.ofInt 64 z).toInt ∧
    (BitVec.ofInt 64 z).toInt < 2 ^ (m - 1))

/-- The translation computes the part as the machine does: an index that is narrower than a pointer
is not too narrow for its product with the size, and an offset has at most 32 bits. -/
def Part.Fits : Part → Prop
  | .scaled s size =>
    ∀ index, indexValue valuation s = some index → SignedBits index.1 (index.2.toInt * size)
  | .field offset => offset % 2 ^ 64 < 2 ^ 32

/-- An index without bits is zero. -/
theorem worth_of_width_zero (index : Dyn) (size : ℕ) (h : index.1 = 0) :
    index.2.toInt * size = 0 := by
  obtain ⟨m, x⟩ := index
  obtain rfl : m = 0 := h
  rw [BitVec.eq_nil x]
  exact Int.zero_mul _

theorem Part.smt_eq_iff (p : Part) :
    p.smt valuation = BitVec.ofInt 64 (p.worth valuation) ↔ p.Fits valuation := by
  cases p with
  | scaled s size =>
      cases hindex : indexValue valuation s with
      | none =>
          simp only [smt, worth, Fits, hindex]
          exact iff_of_true rfl fun _ h => nomatch h
      | some index =>
          simp only [smt, worth, Fits, hindex, Option.elim_some, mul_eq_ofInt, Option.some_inj,
            forall_eq']
          exact signExtend_ofInt_eq_iff (worth_of_width_zero index size)
  | field offset =>
      unfold smt worth Fits
      rw [BitVec.ofInt_natCast, ← BitVec.toNat_inj, BitVec.toNat_ofNat, BitVec.toNat_ofNat]
      have hmod : offset % 2 ^ 32 = offset % 2 ^ 64 % 2 ^ 32 := by omega
      omega

/-- By how much the translation of a part falls short: what the width of the index cuts off the
product, what 32 bits cut off the offset. -/
def Part.excess : Part → ℤ
  | .scaled s size =>
    (indexValue valuation s).elim 0 fun index =>
      index.2.toInt * size - (index.2.toInt * size).bmod (2 ^ index.1)
  | .field offset => offset - offset % 2 ^ 32

theorem Part.smt_eq (p : Part) :
    p.smt valuation = BitVec.ofInt 64 (p.worth valuation - p.excess valuation) := by
  cases p with
  | scaled s size =>
      cases hindex : indexValue valuation s with
      | none =>
          simp only [smt, worth, excess, hindex]
          rfl
      | some index =>
          simp only [smt, worth, excess, hindex, Option.elim_some, mul_eq_ofInt, sub_sub_cancel]
          rw [← BitVec.toInt_ofInt]
          rfl
  | field offset =>
      change BitVec.ofNat 64 (offset % 2 ^ 32) =
        BitVec.ofInt 64 (offset - (offset - offset % 2 ^ 32))
      rw [sub_sub_cancel, ← BitVec.ofInt_natCast]
      push_cast
      rfl

/-- Nothing is missing from a part, modulo the size of the address space, just in case it fits. -/
theorem Part.dvd_excess_iff (p : Part) :
    (2 ^ 64 : ℤ) ∣ p.excess valuation ↔ p.Fits valuation := by
  rw [← p.smt_eq_iff, p.smt_eq, ofInt_eq_ofInt_iff, sub_sub_cancel_left, dvd_neg]

/-- One step of the translation. -/
def smtStep (shift : Dyn) : Part → Option Dyn
  | .scaled s size => (indexValue valuation s).map fun index => add shift (mul index size)
  | .field offset => some (add shift ⟨shift.1, BitVec.ofNat shift.1 (offset % 2 ^ 32)⟩)

/-- The loop of the translation goes through the parts. -/
theorem smtWalk_of_parts {tp : Layout} {ss : List Term} {ps : List Part}
    (h : partsOf tp ss = some ps) (shift : Dyn) :
    smtWalk valuation tp ss shift = ps.foldlM (smtStep valuation) shift := by
  refine partsOf_induction (R := fun tp ss ps => ∀ shift,
    smtWalk valuation tp ss shift = ps.foldlM (smtStep valuation) shift) ?nil ?array ?field h shift
  case nil =>
    intro tp shift
    cases tp <;> rfl
  case array =>
    intro element count s ss ps ih shift
    rw [smtWalk, List.foldlM_cons, smtStep]
    cases indexValue valuation s with
    | none => rfl
    | some index => exact ih _
  case field =>
    intro fields s ss index tp ps hcls htp ih shift
    rw [smtWalk, hcls, htp]
    exact ih _

/-- The loop adds what the parts are to the translation. -/
theorem foldlM_smtStep {ps : List Part} (hvalued : ∀ p ∈ ps, p.Valued valuation) {shift : Dyn}
    (hshift : 64 ≤ shift.1) :
    ∃ d, ps.foldlM (smtStep valuation) shift = some d ∧ 64 ≤ d.1 ∧
      low d = low shift + (ps.map (Part.smt valuation)).sum := by
  induction ps generalizing shift with
  | nil => exact ⟨shift, rfl, hshift, (add_zero _).symm⟩
  | cons p ps ih =>
      have hstep : ∃ d, smtStep valuation shift p = some d ∧ 64 ≤ d.1 ∧
          low d = low shift + p.smt valuation := by
        cases p with
        | scaled s size =>
            obtain ⟨index, hindex⟩ := hvalued _ List.mem_cons_self
            refine ⟨_, by rw [smtStep, hindex, Option.map_some], hshift.trans (le_max_left _ _), ?_⟩
            rw [low_add hshift, Part.smt, hindex, Option.elim_some]
        | field offset =>
            refine ⟨_, rfl, hshift.trans (le_max_left _ _), ?_⟩
            rw [low_add hshift, Part.smt, BitVec.signExtend_eq_setWidth_of_le _ hshift,
              BitVec.setWidth_ofNat_of_le hshift]
      obtain ⟨d, hd, hwide, hlow⟩ := hstep
      obtain ⟨d', hd', hwide', hlow'⟩ :=
        ih (fun q hq => hvalued q (List.mem_cons_of_mem _ hq)) hwide
      refine ⟨d', ?_, hwide', ?_⟩
      · rw [List.foldlM_cons, hd]
        exact hd'
      · rw [hlow', hlow, List.map_cons, List.sum_cons, add_assoc]

/-! ## Zeros -/

/-- A constant index is the number as a pattern of its width. -/
theorem indexValue_constant (obj : ℕ) (value : ℤ) (type : Ty) (name : String)
    (subterms : List Term) :
    indexValue valuation (.mk obj (.opaqueIntConstant value) type name subterms) =
      (sizeForType type).map fun w => ⟨w, BitVec.ofInt w value⟩ := by
  unfold indexValue
  rw [evaluate, intConstant_eq_ofType]
  unfold ofType
  cases sizeForType type <;> rfl

theorem indexValue_of_isZero {s : Term} (h : isZero s = true) {index : Dyn}
    (hindex : indexValue valuation s = some index) : index.2 = 0 := by
  obtain ⟨obj, cls, type, name, subterms⟩ := s
  unfold isZero at h
  split at h
  · next value hcls =>
      obtain rfl : cls = .opaqueIntConstant value := hcls
      obtain rfl : value = 0 := eq_of_beq h
      rw [indexValue_constant] at hindex
      obtain ⟨w, -, rfl⟩ := Option.map_eq_some_iff.mp hindex
      exact BitVec.ofInt_natCast w 0
  · cases h

theorem smt_scaled_of_isZero {s : Term} (h : isZero s = true) (size : ℕ) :
    (Part.scaled s size).smt valuation = 0 := by
  cases hindex : indexValue valuation s with
  | none => rw [Part.smt, hindex, Option.elim_none]
  | some index =>
      have hproduct : (mul index size).2 = 0 := by
        change index.2 * BitVec.ofNat index.1 size = 0
        rw [indexValue_of_isZero valuation h hindex]
        exact BitVec.zero_mul
      rw [Part.smt, hindex, Option.elim_some, hproduct]
      exact (BitVec.signExtend_eq_setWidth_of_msb_false BitVec.msb_zero).trans
        (BitVec.setWidth_zero _ _)

/-- Zeros add nothing in the translation. -/
theorem zero_of_isZero {tp : Layout} {ss : List Term} {ps : List Part}
    (h : partsOf tp ss = some ps) (hzero : ss.all isZero = true) :
    ∀ p ∈ ps, p.smt valuation = 0 := by
  refine partsOf_induction (R := fun _ ss ps => ss.all isZero = true →
    ∀ p ∈ ps, p.smt valuation = 0) ?nil ?array ?field h hzero
  case nil =>
    intro tp _ p hp
    exact absurd hp List.not_mem_nil
  case array =>
    intro element count s ss ps ih hzero
    rw [List.all_cons, Bool.and_eq_true] at hzero
    rw [List.forall_mem_cons]
    exact ⟨smt_scaled_of_isZero valuation hzero.1 _, ih hzero.2⟩
  case field =>
    intro fields s ss index tp ps hcls htp ih hzero
    rw [List.all_cons, Bool.and_eq_true] at hzero
    have hindex : index = 0 := by
      have hs := hzero.1
      unfold isZero at hs
      rw [hcls] at hs
      exact eq_of_beq hs
    rw [List.forall_mem_cons]
    refine ⟨?_, ih hzero.2⟩
    rw [hindex]
    rfl

theorem smt_eq_zero_of_isZero {pointed : Layout} {shifts : List Term} {ps : List Part}
    (h : parts pointed shifts = some ps) (hzero : shifts.all isZero = true) :
    ∀ p ∈ ps, p.smt valuation = 0 := by
  cases shifts with
  | nil =>
      obtain rfl := Option.some.inj h
      exact fun p hp => absurd hp List.not_mem_nil
  | cons s ss =>
      rw [List.all_cons, Bool.and_eq_true] at hzero
      obtain ⟨ps, hps, rfl⟩ := Option.map_eq_some_iff.mp h
      rw [List.forall_mem_cons]
      exact ⟨smt_scaled_of_isZero valuation hzero.1 _, zero_of_isZero valuation hps hzero.2⟩

/-! ## The shift of the translation -/

/-- The translation adds up its parts, whether it returns early or not. -/
theorem smtShift_of_parts {pointed : Layout} {shifts : List Term} {ps : List Part}
    (h : parts pointed shifts = some ps) (hvalued : ∀ p ∈ ps, p.Valued valuation) :
    ∃ d, smtShift valuation pointed shifts = some d ∧ 64 ≤ d.1 ∧
      low d = (ps.map (Part.smt valuation)).sum := by
  unfold smtShift
  split
  · next hzero =>
      -- the translation returns early, with a shift that its parts add up to as well
      refine ⟨_, rfl, le_refl 64, ?_⟩
      have hmap : ps.map (Part.smt valuation) = ps.map fun _ => 0 :=
        List.map_congr_left (smt_eq_zero_of_isZero valuation h hzero)
      rw [hmap, List.sum_map_zero]
      rfl
  · next hnonzero =>
      cases shifts with
      | nil => exact absurd rfl hnonzero
      | cons s ss =>
          obtain ⟨ps, hps, rfl⟩ := Option.map_eq_some_iff.mp h
          obtain ⟨index, hindex⟩ := hvalued _ List.mem_cons_self
          have hwide : 64 ≤ (add ⟨64, 0⟩ (mul index pointed.getTypeSizeInElems)).1 :=
            le_max_left _ _
          obtain ⟨d, hd, hwide', hlow⟩ := foldlM_smtStep valuation
            (fun p hp => hvalued p (List.mem_cons_of_mem _ hp)) hwide
          refine ⟨d, ?_, hwide', ?_⟩
          · dsimp only
            rw [hindex, Option.bind_some, smtWalk_of_parts valuation hps]
            exact hd
          · rw [hlow, low_add (le_refl 64), List.map_cons, List.sum_cons, Part.smt, hindex,
              Option.elim_some]
            congr 1
            exact BitVec.zero_add _

/-! ## The shift of constants -/

/-- The term is folded to this number. -/
def FoldsTo (t : Term) (v : BitVec 64) : Prop :=
  ∃ r, ConstantPropagator.transform FN t = some r ∧
    ConstantPropagator.getValue r.cls = some (.int v)

theorem foldsTo_constant (obj : ℕ) (value : ℤ) (type : Ty) (name : String) :
    FoldsTo FN (.mk obj (.opaqueIntConstant value) type name []) (BitVec.ofInt 64 value) :=
  ⟨.mk obj (.opaqueIntConstant value) type name [], rfl, rfl⟩

theorem FoldsTo.binary {op : ArithType} {l r : Term} {x y z : BitVec 64} (hl : FoldsTo FN l x)
    (hr : FoldsTo FN r y) (hop : ConstantPropagator.propagateInt op x y = some z) :
    FoldsTo FN (FN.getBinaryTerm op l r) z := by
  obtain ⟨l', hl, hx⟩ := hl
  obtain ⟨r', hr, hy⟩ := hr
  refine ⟨ConstantPropagator.getOpaqueConstantTerm (.int z), ?_, ?_⟩
  · unfold ConstantPropagator.transform at hl hr ⊢
    simp only [TermFactory.getBinaryTerm, ConstantPropagator.transformWith,
      ConstantPropagator.transformAllWith, hl, hr, Option.bind_some, Option.map_some,
      ConstantPropagator.step, hx, hy, ConstantPropagator.propagateArith,
      ConstantPropagator.Constant.toInt64, hop]
    rfl
  · change some (ConstantPropagator.Constant.int (BitVec.ofInt 64 z.toInt)) = _
    rw [BitVec.ofInt_toInt]

/-- An integer constant. -/
def IsConstant (s : Term) : Prop :=
  ∃ obj value w signedness name,
    s = .mk obj (.opaqueIntConstant value) (.integer w signedness) name []

/-- What the computation on constants adds for a part. -/
def Part.calc : Part → BitVec 64
  | .scaled s size =>
    match s.cls with
    | .opaqueIntConstant value => BitVec.ofInt 64 value * BitVec.ofNat 64 size
    | _ => 0
  | .field offset => BitVec.ofNat 64 (offset % 2 ^ 32)

/-- By how much `calcShift` falls short on a part: how far the stored number is from what its bits
stand for, times the size, and what 32 bits cut off the offset. -/
def Part.shortfall : Part → ℤ
  | .scaled s size =>
    match s.cls with
    | .opaqueIntConstant value =>
      (indexValue valuation s).elim 0 fun index => (index.2.toInt - value) * size
    | _ => 0
  | .field offset => offset - offset % 2 ^ 32

/-- The part of a constant or a field. -/
theorem Part.calc_eq {p : Part} (hconstant : ∀ s size, p = .scaled s size → IsConstant s) :
    p.calc = BitVec.ofInt 64 (p.worth valuation - p.shortfall valuation) := by
  cases p with
  | scaled s size =>
      obtain ⟨obj, value, w, signedness, name, rfl⟩ := hconstant s size rfl
      have hindex := indexValue_constant valuation obj value (.integer w signedness) name []
      have hshort : (BitVec.ofInt w value).toInt * size -
          ((BitVec.ofInt w value).toInt - value) * size = value * size := by ring
      calc (Part.scaled (.mk obj (.opaqueIntConstant value) (.integer w signedness) name [])
              size).calc
          = BitVec.ofInt 64 value * BitVec.ofNat 64 size := rfl
        _ = BitVec.ofInt 64 (value * size) := by rw [BitVec.ofInt_mul, BitVec.ofInt_natCast]
        _ = _ := by
          rw [← hshort]
          simp only [worth, shortfall, Term.cls, hindex]
          rfl
  | field offset => exact Part.smt_eq (fun _ => none) (.field offset)

theorem foldsTo_timesNumber {s : Term} (h : IsConstant s) (size : ℕ) :
    FoldsTo FN (timesNumber FN s size) (Part.scaled s size).calc := by
  obtain ⟨obj, value, w, signedness, name, rfl⟩ := h
  refine FoldsTo.binary FN (foldsTo_constant FN obj value _ name) (foldsTo_constant FN 0 _ _ _) ?_
  rw [BitVec.ofInt_toInt]
  rfl

theorem foldsTo_plusNumber {t : Term} {x : BitVec 64} (h : FoldsTo FN t x) (offset : ℕ) :
    FoldsTo FN (plusNumber FN t offset) (x + BitVec.ofNat 64 offset) := by
  refine FoldsTo.binary FN h (foldsTo_constant FN 0 _ _ _) ?_
  rw [BitVec.ofInt_toInt]
  rfl

/-- The loop adds what the parts are to the computation. -/
theorem calcWalk_of_parts {tp : Layout} {ss : List Term} {ps : List Part}
    (h : partsOf tp ss = some ps) (hconstant : ∀ s ∈ ss, IsConstant s) {shift : Term}
    {x : BitVec 64} (hshift : FoldsTo FN shift x) :
    ∃ t, calcWalk FN tp ss shift = some t ∧ FoldsTo FN t (x + (ps.map Part.calc).sum) := by
  refine partsOf_induction (R := fun tp ss ps => (∀ s ∈ ss, IsConstant s) → ∀ shift x,
    FoldsTo FN shift x →
    ∃ t, calcWalk FN tp ss shift = some t ∧ FoldsTo FN t (x + (ps.map Part.calc).sum))
    ?nil ?array ?field h hconstant shift x hshift
  case nil =>
    intro tp _ shift x hshift
    rw [List.map_nil, List.sum_nil, add_zero]
    refine ⟨shift, ?_, hshift⟩
    cases tp <;> rfl
  case array =>
    intro element count s ss ps ih hconstant shift x hshift
    rw [List.forall_mem_cons] at hconstant
    rw [calcWalk, List.map_cons, List.sum_cons, ← add_assoc]
    apply ih hconstant.2
    exact hshift.binary FN (foldsTo_timesNumber FN hconstant.1 _) rfl
  case field =>
    intro fields s ss index tp ps hcls htp ih hconstant shift x hshift
    rw [List.forall_mem_cons] at hconstant
    rw [calcWalk, hcls, htp, List.map_cons, List.sum_cons, ← add_assoc]
    exact ih hconstant.2 _ _ (foldsTo_plusNumber FN hshift _)

/-- The parts scale indices of the term. -/
theorem mem_of_scaled_partsOf {s : Term} {size : ℕ} {tp : Layout} {ss : List Term}
    {ps : List Part} (h : partsOf tp ss = some ps) (hmem : .scaled s size ∈ ps) : s ∈ ss := by
  refine partsOf_induction (R := fun _ ss ps => .scaled s size ∈ ps → s ∈ ss)
    ?nil ?array ?field h hmem
  case nil =>
    intro tp hmem
    exact absurd hmem List.not_mem_nil
  case array =>
    intro element count t ss ps ih hmem
    rcases List.mem_cons.mp hmem with heq | hmem
    · obtain ⟨rfl, -⟩ := Part.scaled.inj heq
      exact List.mem_cons_self
    · exact List.mem_cons_of_mem _ (ih hmem)
  case field =>
    intro fields t ss index tp ps hcls htp ih hmem
    rcases List.mem_cons.mp hmem with heq | hmem
    · cases heq
    · exact List.mem_cons_of_mem _ (ih hmem)

theorem mem_of_scaled_mem {pointed : Layout} {shifts : List Term} {ps : List Part}
    (h : parts pointed shifts = some ps) {s : Term} {size : ℕ} (hmem : .scaled s size ∈ ps) :
    s ∈ shifts := by
  cases shifts with
  | nil =>
      obtain rfl := Option.some.inj h
      exact absurd hmem List.not_mem_nil
  | cons t ss =>
      obtain ⟨ps, hps, rfl⟩ := Option.map_eq_some_iff.mp h
      rcases List.mem_cons.mp hmem with heq | hmem
      · obtain ⟨rfl, -⟩ := Part.scaled.inj heq
        exact List.mem_cons_self
      · exact List.mem_cons_of_mem _ (mem_of_scaled_partsOf hps hmem)

/-- The computation on constants adds up its parts. -/
theorem calcShift_of_parts {pointed : Layout} {shifts : List Term} {ps : List Part}
    (h : parts pointed shifts = some ps) (hconstant : ∀ s ∈ shifts, IsConstant s)
    (hne : shifts ≠ []) :
    ∃ r, calcShift FN pointed shifts = some r ∧
      ConstantPropagator.getValue r.cls = some (.int (ps.map Part.calc).sum) := by
  cases shifts with
  | nil => exact absurd rfl hne
  | cons s ss =>
      rw [List.forall_mem_cons] at hconstant
      obtain ⟨ps, hps, rfl⟩ := Option.map_eq_some_iff.mp h
      have hstart : FoldsTo FN (FN.getBinaryTerm .add
          (TermFactory.getIntTerm 0 (.integer 64 .unsigned))
          (timesNumber FN s pointed.getTypeSizeInElems))
          (Part.scaled s pointed.getTypeSizeInElems).calc := by
        refine (foldsTo_constant FN 0 0 _ _).binary FN
          (foldsTo_timesNumber FN hconstant.1 pointed.getTypeSizeInElems) ?_
        exact congrArg some (BitVec.zero_add _)
      obtain ⟨t, ht, r, hr, hvalue⟩ := calcWalk_of_parts FN hps hconstant.2 hstart
      refine ⟨r, ?_, ?_⟩
      · unfold calcShift
        dsimp only
        rw [ht, Option.bind_some, hr]
      · rw [hvalue, List.map_cons, List.sum_cons]

/-! ## Both computations -/

theorem ofInt_sum {l : List Part} {f : Part → BitVec 64} {g : Part → ℤ}
    (h : ∀ p ∈ l, f p = BitVec.ofInt 64 (g p)) :
    (l.map f).sum = BitVec.ofInt 64 (l.map g).sum := by
  induction l with
  | nil => exact (BitVec.ofInt_natCast 64 0).symm
  | cons p l ih =>
      rw [List.forall_mem_cons] at h
      rw [List.map_cons, List.map_cons, List.sum_cons, List.sum_cons, BitVec.ofInt_add, h.1, ih h.2]

/-- Parts that fall short by some amounts add up to the offset just in case the amounts together
are a multiple of the size of the address space. -/
theorem sum_eq_machineOffset_iff {ps : List Part} {f : Part → BitVec 64} {short : Part → ℤ}
    (h : ∀ p ∈ ps, f p = BitVec.ofInt 64 (p.worth valuation - short p)) :
    (ps.map f).sum = machineOffset valuation ps ↔ (2 ^ 64 : ℤ) ∣ (ps.map short).sum := by
  have hsub : (ps.map fun p => p.worth valuation - short p).sum =
      (ps.map (Part.worth valuation)).sum - (ps.map short).sum := by
    rw [eq_sub_iff_add_eq, ← List.sum_map_add]
    congr 1
    exact List.map_congr_left fun p _ => sub_add_cancel _ _
  rw [ofInt_sum h, hsub, machineOffset, ofInt_eq_ofInt_iff, sub_sub_cancel_left, dvd_neg]

/-- The shift that the translation adds to the base is that of the machine. -/
def SmtRight (pointed : Layout) (shifts : List Term) (ps : List Part) : Prop :=
  ∃ d, smtShift valuation pointed shifts = some d ∧ low d = machineOffset valuation ps

/-- `calcShift` returns the offset of the machine. -/
def CalcRight (pointed : Layout) (shifts : List Term) (ps : List Part) : Prop :=
  ∃ r, calcShift FN pointed shifts = some r ∧
    ConstantPropagator.getValue r.cls = some (.int (machineOffset valuation ps))

/-- The result of a computation that returns one is that result. -/
theorem exists_result_iff {α : Type} {result : Option α} {r : α} (h : result = some r)
    {P : α → Prop} : (∃ r', result = some r' ∧ P r') ↔ P r := by
  rw [h]
  constructor
  · intro hright
    obtain ⟨r', hr', hright⟩ := hright
    exact Option.some.inj hr' ▸ hright
  · intro hright
    exact ⟨r, rfl, hright⟩

/-- The two shifts are that of the machine just in case what is missing from the parts adds up to a
multiple of the size of the address space.  For the translation that is so when every part fits. -/
theorem shiftsRight_iff {pointed : Layout} {shifts : List Term} {ps : List Part}
    (h : parts pointed shifts = some ps) (hne : shifts ≠ [])
    (hvalued : ∀ p ∈ ps, p.Valued valuation) :
    (SmtRight valuation pointed shifts ps ↔ (2 ^ 64 : ℤ) ∣ (ps.map (Part.excess valuation)).sum) ∧
      ((∀ p ∈ ps, p.Fits valuation) → SmtRight valuation pointed shifts ps) ∧
      ((∀ s ∈ shifts, IsConstant s) →
        (CalcRight valuation FN pointed shifts ps ↔
          (2 ^ 64 : ℤ) ∣ (ps.map (Part.shortfall valuation)).sum)) := by
  obtain ⟨d, hd, -, hlow⟩ := smtShift_of_parts valuation h hvalued
  have hsmt : SmtRight valuation pointed shifts ps ↔
      (2 ^ 64 : ℤ) ∣ (ps.map (Part.excess valuation)).sum := by
    rw [← sum_eq_machineOffset_iff valuation fun p _ => p.smt_eq valuation, ← hlow]
    exact exists_result_iff hd
  refine ⟨hsmt, ?_, ?_⟩
  · intro hfits
    apply hsmt.mpr
    apply List.dvd_sum
    intro z hz
    obtain ⟨p, hp, rfl⟩ := List.mem_map.mp hz
    exact (p.dvd_excess_iff valuation).mpr (hfits p hp)
  · intro hconstant
    obtain ⟨r, hr, hvalue⟩ := calcShift_of_parts FN h hconstant hne
    have hcalc : ∀ p ∈ ps,
        p.calc = BitVec.ofInt 64 (p.worth valuation - p.shortfall valuation) := by
      intro p hp
      apply Part.calc_eq
      intro s size heq
      subst heq
      exact hconstant s (mem_of_scaled_mem h hp)
    rw [← sum_eq_machineOffset_iff valuation hcalc]
    refine (exists_result_iff hr).trans ?_
    rw [hvalue, Option.some.injEq, ConstantPropagator.Constant.int.injEq]

section Strides

/-- Four bytes. -/
def quad : Layout :=
  .record [.elem, .elem, .elem, .elem]

/-- A factory whose terms have the type of the class they are asked for. -/
def anyFactory : TermFactory :=
  { type := fun _ t _ => t, name := fun _ _ _ => "" }

/-- A constant of 32 bits. -/
def index32 (value : ℤ) : Term :=
  .mk 0 (.opaqueIntConstant value) (.integer 32 .unknown) "" []

/-- An index of 32 bits whose product with a size of four bytes needs 33.  The product is lost
before it is extended, while the computation on constants keeps it. -/
theorem shift_wraps_at_index_width :
    ∃ FN pointed shifts ps, parts pointed shifts = some ps ∧
      (∀ p ∈ ps, p.Valued fun _ => none) ∧ (∀ s ∈ shifts, IsConstant s) ∧
      ¬ SmtRight (fun _ => none) pointed shifts ps ∧
      CalcRight (fun _ => none) FN pointed shifts ps := by
  refine ⟨anyFactory, quad, [index32 0x40000000], [.scaled (index32 0x40000000) 4],
    rfl, ?_, ?_, ?_, ?_⟩
  · intro p hp
    obtain rfl := List.mem_singleton.mp hp
    exact ⟨⟨32, 0x40000000⟩, rfl⟩
  · intro s hs
    obtain rfl := List.mem_singleton.mp hs
    exact ⟨0, 0x40000000, 32, .unknown, "", rfl⟩
  · intro hright
    obtain ⟨d, hd, hlow⟩ := hright
    obtain rfl := Option.some.inj hd
    exact absurd hlow (by decide)
  · exact ⟨_, rfl, rfl⟩

/-- A negative index of 32 bits that is stored as a signed number. -/
theorem shiftsRight_iff_backwards :
    (2 ^ 64 : ℤ) ∣ (([.scaled (index32 (-1)) 4] : List Part).map
        (Part.excess fun _ => none)).sum ∧
      SmtRight (fun _ => none) quad [index32 (-1)] [.scaled (index32 (-1)) 4] := by
  have hexcess : (2 ^ 64 : ℤ) ∣ (([.scaled (index32 (-1)) 4] : List Part).map
      (Part.excess fun _ => none)).sum := by decide
  refine ⟨hexcess, ?_⟩
  refine (shiftsRight_iff (fun _ => none) anyFactory
    (show parts quad [index32 (-1)] = some [.scaled (index32 (-1)) 4] from rfl)
    (List.cons_ne_nil _ _) ?_).1.mpr hexcess
  intro p hp
  obtain rfl := List.mem_singleton.mp hp
  exact ⟨⟨32, -1⟩, rfl⟩

end Strides

end GepTerm

end Borealis
