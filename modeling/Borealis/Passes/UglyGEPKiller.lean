import Mathlib.Data.BitVec
import Mathlib.Tactic.Linarith

/-!
# Rewriting ugly geps

`Passes/Transform/UglyGEPKiller.cpp`: a gep over bytes whose index is a multiple of an element size
becomes a gep over elements.  The index of a gep has any width, and is extended with its sign, or
truncated, to the 64 bits of a pointer before it is multiplied with the size of an element.

## Strategy

What the pass recognises is an operand times a scale (`eval_of_matchScale`), and the new index is
the operand times the scale divided by the element size.  Both products are taken in the width of
the index, so they give one address when the byte offset of the new gep has that width
(`byteOffset_eq_iff`).
-/

namespace Borealis

namespace UglyGEPKiller

/-! ## Values and types -/

/-- `llvm::Value` of an integer type: a constant, the instructions the pass and an index are built
from, and the others as variables. -/
inductive Value : ℕ → Type
  | constant {width : ℕ} (value : BitVec width) : Value width
  | shl {width : ℕ} (lhv rhv : Value width) : Value width
  | mul {width : ℕ} (lhv rhv : Value width) : Value width
  | zext {width : ℕ} (target : ℕ) (operand : Value width) : Value target
  | sext {width : ℕ} (target : ℕ) (operand : Value width) : Value target
  | variable {width : ℕ} (name : ℕ) : Value width

/-- The values of the variables. -/
abbrev Env := (width : ℕ) → ℕ → BitVec width

/-- A machine value; a shift by the width or more has none. -/
def Value.eval (env : Env) : {width : ℕ} → Value width → Option (BitVec width)
  | _, .constant value => some value
  | width, .shl lhv rhv => do
      let x ← lhv.eval env
      let y ← rhv.eval env
      if y.toNat < width then some (x <<< y.toNat) else none
  | _, .mul lhv rhv => do
      let x ← lhv.eval env
      let y ← rhv.eval env
      some (x * y)
  | _, .zext target operand => (operand.eval env).map fun x => x.setWidth target
  | _, .sext target operand => (operand.eval env).map fun x => x.signExtend target
  | width, .variable name => some (env width name)

/-- `llvm::Type`: arrays, the other single value types, and the rest. -/
inductive Ty
  | array (element : Ty) (count : ℕ)
  | single (name : ℕ)
  | other (name : ℕ)

/-! ## The pass -/

/-- The type whose size divides the index, and if it is the element of an array. -/
def elementType : Ty → Option (Ty × Bool)
  | .array element _ => some (element, true)
  | .single name => some (.single name, false)
  | .other _ => none

variable {width : ℕ}

/-- `NewIdx` and `Scale`.  The shifted `1ULL` has 64 bits, and a count of 64 counts as none. -/
def matchScale (eltSize : ℕ) (idx : Value width) : Option (Value width × BitVec width) :=
  if eltSize = 1 then some (idx, BitVec.ofNat width 1)
  else
    match idx with
    | .constant CI => some (.constant (BitVec.ofNat _ 1), CI)
    | .shl lhv (.constant ShAmt) =>
        some (lhv, BitVec.ofNat _ (2 ^ (min ShAmt.toNat 64 % 64)))
    | .mul lhv (.constant Scale) => some (lhv, Scale)
    | _ => none

/-- `NewIdx` and the quotient of the scale.  Nothing comes of a division by a size of zero, and
`getZExtValue` asserts that the scale has 64 bits. -/
def divideScale (eltSize : ℕ) (idx : Value width) : Option (Value width × ℕ) := do
  let (NewIdx, Scale) ← matchScale eltSize idx
  let iScale := Scale.toNat
  if 2 ^ 64 ≤ iScale ∨ eltSize = 0 ∨ iScale % eltSize ≠ 0 then none
  else some (NewIdx, iScale / eltSize)

/-- The indices of a new gep: for an array, a zero comes before the index. -/
structure Indices (width : ℕ) where
  isArray : Bool
  NewIdx : Value width

variable (allocSize : Ty → ℕ)

/-- `tryFindAdjustedIndices`. -/
def tryFindAdjustedIndices (idx : Value width) (dePointed : Ty) : Option (Indices width) := do
  let (type, isArray) ← elementType dePointed
  let (NewIdx, iScale) ← divideScale (allocSize type) idx
  some ⟨isArray, if iScale = 1 then NewIdx else .mul NewIdx (.constant (BitVec.ofNat _ iScale))⟩

/-- A bitcast of a byte gep on a bitcast: the types that the first and the last pointer point to,
and the byte index. -/
structure UglyGEP (width : ℕ) where
  startType : Ty
  endType : Ty
  idx : Value width

/-- A gep: what its pointer points to, and the indices. -/
structure GEP (width : ℕ) where
  dePointed : Ty
  indices : Indices width

/-- The body of the loop of `runOnModule`. -/
def rewrite (I : UglyGEP width) : Option (GEP width) :=
  match tryFindAdjustedIndices allocSize I.idx I.startType with
  | some newIdxs => some ⟨I.startType, newIdxs⟩
  | none =>
      match tryFindAdjustedIndices allocSize I.idx I.endType with
      | some newIdxs => if newIdxs.isArray then none else some ⟨I.endType, newIdxs⟩
      | none => none

/-! ## Addresses -/

/-- The address of the byte gep. -/
def UglyGEP.address (env : Env) (base : BitVec 64) (I : UglyGEP width) : Option (BitVec 64) :=
  (I.idx.eval env).map fun x => base + x.signExtend 64

/-- The size that an index of a gep is multiplied with: behind a zero, that of an element. -/
def GEP.stride (gep : GEP width) : ℕ :=
  match gep.indices.isArray, gep.dePointed with
  | true, .array element _ => allocSize element
  | _, dePointed => allocSize dePointed

/-- The address of a gep. -/
def GEP.address (env : Env) (base : BitVec 64) (gep : GEP width) : Option (BitVec 64) :=
  (gep.indices.NewIdx.eval env).map fun x =>
    base + x.signExtend 64 * BitVec.ofNat 64 (gep.stride allocSize)

/-- The new gep computes the address of the old one. -/
def PreservesAddress (env : Env) (base : BitVec 64) (I : UglyGEP width) : Prop :=
  ∀ gep, rewrite allocSize I = some gep → ∀ p, I.address env base = some p →
    gep.address allocSize env base = some p

/-- A byte offset is one of an index of some width. -/
def HasWidth (width : ℕ) (offset : BitVec 64) : Prop :=
  (offset.setWidth width).signExtend 64 = offset

/-- The element type of a type, where the pass recognises the index for it. -/
def recognised (idx : Value width) (dePointed : Ty) : Option (Ty × Bool) :=
  (elementType dePointed).filter fun type => (divideScale (allocSize type.1) idx).isSome

/-- The type whose size divides the index: of the first pointer, or of the last one. -/
def recognisedType (I : UglyGEP width) : Option Ty :=
  match recognised allocSize I.idx I.startType with
  | some type => some type.1
  | none => ((recognised allocSize I.idx I.endType).filter fun type => !type.2).map Prod.fst

/-- The operand times the quotient of the scale, in elements, is an offset of the index's width. -/
def FitsWidth (env : Env) (I : UglyGEP width) : Prop :=
  ∀ type, recognisedType allocSize I = some type →
    ∀ operand iScale, divideScale (allocSize type) I.idx = some (operand, iScale) →
      ∀ v x, I.idx.eval env = some v → operand.eval env = some x →
        HasWidth width ((x * BitVec.ofNat width iScale).signExtend 64 *
          BitVec.ofNat 64 (allocSize type))

/-! ## Offsets -/

/-- **When one product, extended, is the other**: the offset of the new gep against that of the
old one. -/
theorem byteOffset_eq_iff (y : BitVec width) (eltSize : ℕ) :
    y.signExtend 64 * BitVec.ofNat 64 eltSize = (y * BitVec.ofNat width eltSize).signExtend 64 ↔
      HasWidth width (y.signExtend 64 * BitVec.ofNat 64 eltSize) := by
  rcases Nat.le_total width 64 with hle | hle
  · have htruncate : (y.signExtend 64 * BitVec.ofNat 64 eltSize).setWidth width =
        y * BitVec.ofNat width eltSize := by
      rw [BitVec.setWidth_mul _ _ hle, BitVec.setWidth_ofNat_of_le hle]
      congr 1
      ext i hi
      rw [BitVec.getElem_setWidth, BitVec.getLsbD_signExtend, if_pos hi]
      simp [hi, hi.trans_le hle]
    rw [HasWidth, htruncate]
    exact eq_comm
  · refine iff_of_true ?_ ?_
    · rw [BitVec.signExtend_eq_setWidth_of_le _ hle, BitVec.signExtend_eq_setWidth_of_le _ hle,
        BitVec.setWidth_mul _ _ hle, BitVec.setWidth_ofNat_of_le hle]
    · rw [HasWidth, BitVec.signExtend_eq_setWidth_of_le (BitVec.setWidth _ _) hle]
      simp [hle]

/-! ## What is recognised -/

/-- A recognised index is the operand times the scale.  The scale of a shift by 64 or more is one,
which no size but one divides. -/
theorem eval_of_matchScale {eltSize : ℕ} {idx operand : Value width} {Scale v : BitVec width}
    {env : Env} (hmatch : matchScale eltSize idx = some (operand, Scale))
    (hv : idx.eval env = some v) :
    ∃ x, operand.eval env = some x ∧ (v = x * Scale ∨ eltSize ≠ 1 ∧ Scale.toNat = 1) := by
  unfold matchScale at hmatch
  by_cases hsize : eltSize = 1
  · rw [if_pos hsize] at hmatch
    cases hmatch
    exact ⟨v, hv, Or.inl (BitVec.mul_one v).symm⟩
  rw [if_neg hsize] at hmatch
  cases idx with
  | constant CI =>
      cases hmatch
      cases hv
      exact ⟨_, rfl, Or.inl (BitVec.one_mul _).symm⟩
  | shl lhv rhv =>
      cases rhv with
      | constant ShAmt =>
          cases hmatch
          rw [Value.eval] at hv
          cases hx : operand.eval env with
          | none => simp [hx] at hv
          | some x =>
              simp only [hx, Value.eval, Option.bind_eq_bind, Option.bind_some] at hv
              split at hv
              · next hlt =>
                  cases hv
                  refine ⟨x, rfl, ?_⟩
                  by_cases hcount : ShAmt.toNat < 64
                  · refine Or.inl ?_
                    rw [min_eq_left hcount.le, Nat.mod_eq_of_lt hcount,
                      BitVec.shiftLeft_eq_mul_twoPow]
                    congr 1
                    apply BitVec.eq_of_toNat_eq
                    rw [BitVec.toNat_twoPow, BitVec.toNat_ofNat]
                  · refine Or.inr ⟨hsize, ?_⟩
                    rw [min_eq_right (not_lt.mp hcount), Nat.mod_self, pow_zero,
                      BitVec.toNat_ofNat, Nat.mod_eq_of_lt (Nat.one_lt_two_pow (by omega))]
              · cases hv
      | _ => cases hmatch
  | mul lhv rhv =>
      cases rhv with
      | constant Scale' =>
          cases hmatch
          rw [Value.eval] at hv
          cases hx : operand.eval env with
          | none => simp [hx] at hv
          | some x =>
              simp only [hx, Value.eval, Option.bind_eq_bind, Option.bind_some] at hv
              cases hv
              exact ⟨x, rfl, Or.inl rfl⟩
      | _ => cases hmatch
  | _ => cases hmatch

/-- **What a recognised index is**: the operand times the quotient, in elements. -/
theorem eval_of_divideScale {eltSize iScale : ℕ} {idx operand : Value width} {v : BitVec width}
    {env : Env} (hdivide : divideScale eltSize idx = some (operand, iScale))
    (hv : idx.eval env = some v) :
    ∃ x, operand.eval env = some x ∧
      v = x * BitVec.ofNat width iScale * BitVec.ofNat width eltSize := by
  unfold divideScale at hdivide
  cases hmatch : matchScale eltSize idx with
  | none =>
      rw [hmatch] at hdivide
      cases hdivide
  | some matched =>
      obtain ⟨NewIdx, Scale⟩ := matched
      simp only [hmatch, Option.bind_eq_bind, Option.bind_some] at hdivide
      split at hdivide
      · cases hdivide
      · next hscale =>
          rw [not_or, not_or, not_not, not_le] at hscale
          obtain ⟨-, hsize, hmod⟩ := hscale
          cases hdivide
          obtain ⟨x, hx, hvalue | ⟨hone, hScale⟩⟩ := eval_of_matchScale hmatch hv
          · refine ⟨x, hx, ?_⟩
            rw [BitVec.mul_assoc, ← BitVec.ofNat_mul, Nat.div_mul_cancel (Nat.dvd_of_mod_eq_zero hmod),
              BitVec.ofNat_toNat, BitVec.setWidth_eq]
            exact hvalue
          · rw [hScale, Nat.mod_eq_of_lt (by omega)] at hmod
            cases hmod

/-! ## What is rewritten -/

/-- The new index: the operand, times the quotient if that is not one. -/
def scaled (operand : Value width) (iScale : ℕ) : Value width :=
  if iScale = 1 then operand else .mul operand (.constant (BitVec.ofNat _ iScale))

theorem eval_scaled {operand : Value width} {env : Env} {x : BitVec width}
    (hx : operand.eval env = some x) (iScale : ℕ) :
    (scaled operand iScale).eval env = some (x * BitVec.ofNat width iScale) := by
  unfold scaled
  split
  · next hone =>
      rw [hone, hx]
      exact congrArg some (BitVec.mul_one x).symm
  · rw [Value.eval, hx]
    rfl

variable {allocSize}

/-- A type for which the index is recognised, and what becomes of it. -/
structure Adjusts (allocSize : Ty → ℕ) (idx : Value width) (dePointed type : Ty)
    (newIdxs : Indices width) (operand : Value width) (iScale : ℕ) : Prop where
  elementType : elementType dePointed = some (type, newIdxs.isArray)
  divideScale : divideScale (allocSize type) idx = some (operand, iScale)
  NewIdx : newIdxs.NewIdx = scaled operand iScale

/-- **The index is adjusted where it is recognised.** -/
theorem tryFindAdjustedIndices_cases (allocSize : Ty → ℕ) (idx : Value width) (dePointed : Ty) :
    (tryFindAdjustedIndices allocSize idx dePointed = none ∧
        recognised allocSize idx dePointed = none) ∨
      ∃ type newIdxs operand iScale,
        tryFindAdjustedIndices allocSize idx dePointed = some newIdxs ∧
          recognised allocSize idx dePointed = some (type, newIdxs.isArray) ∧
            Adjusts allocSize idx dePointed type newIdxs operand iScale := by
  cases helement : elementType dePointed with
  | none => simp [tryFindAdjustedIndices, recognised, helement]
  | some element =>
      obtain ⟨type, isArray⟩ := element
      cases hdivide : divideScale (allocSize type) idx with
      | none => simp [tryFindAdjustedIndices, recognised, helement, hdivide]
      | some divided =>
          obtain ⟨operand, iScale⟩ := divided
          refine Or.inr ⟨type, ⟨isArray, scaled operand iScale⟩, operand, iScale, ?_, ?_,
            ⟨helement, hdivide, rfl⟩⟩
          · simp [tryFindAdjustedIndices, helement, hdivide, scaled]
          · simp [recognised, helement, hdivide]

theorem Adjusts.stride {idx : Value width} {dePointed type : Ty} {newIdxs : Indices width}
    {operand : Value width} {iScale : ℕ}
    (h : Adjusts allocSize idx dePointed type newIdxs operand iScale) :
    (⟨dePointed, newIdxs⟩ : GEP width).stride allocSize = allocSize type := by
  have helement := h.elementType
  cases dePointed with
  | array element count =>
      obtain ⟨rfl, harray⟩ := Prod.mk.inj (Option.some.inj helement)
      rw [GEP.stride, ← harray]
  | single name =>
      obtain ⟨rfl, harray⟩ := Prod.mk.inj (Option.some.inj helement)
      rw [GEP.stride, ← harray]
  | other name => cases helement

/-- **A gep is rewritten for the type that is recognised.** -/
theorem rewrite_cases (allocSize : Ty → ℕ) (I : UglyGEP width) :
    (rewrite allocSize I = none ∧ recognisedType allocSize I = none) ∨
      ∃ gep type operand iScale, rewrite allocSize I = some gep ∧
        recognisedType allocSize I = some type ∧
          Adjusts allocSize I.idx gep.dePointed type gep.indices operand iScale := by
  rcases tryFindAdjustedIndices_cases allocSize I.idx I.startType with
    ⟨hstart, hstart'⟩ | ⟨type, newIdxs, operand, iScale, hstart, hstart', hadjusts⟩
  · rcases tryFindAdjustedIndices_cases allocSize I.idx I.endType with
      ⟨hend, hend'⟩ | ⟨type, newIdxs, operand, iScale, hend, hend', hadjusts⟩
    · simp [rewrite, recognisedType, hstart, hstart', hend, hend']
    · -- geps with two indices are not built on the type of the last pointer
      cases harray : newIdxs.isArray with
      | true =>
          rw [harray] at hend'
          simp [rewrite, recognisedType, hstart, hstart', hend, hend', harray]
      | false =>
          refine Or.inr ⟨⟨I.endType, newIdxs⟩, type, operand, iScale, ?_, ?_, hadjusts⟩
          · simp [rewrite, hstart, hend, harray]
          · simp [recognisedType, hstart', hend', harray]
  · refine Or.inr ⟨⟨I.startType, newIdxs⟩, type, operand, iScale, ?_, ?_, hadjusts⟩
    · simp [rewrite, hstart]
    · simp [recognisedType, hstart']

/-- **When the address is preserved**: the index has 64 bits or more, or its operand, scaled to
elements in the width of the index, is as many bytes as fit in that width. -/
theorem preservesAddress_iff (allocSize : Ty → ℕ) (env : Env) (base : BitVec 64)
    (I : UglyGEP width) :
    PreservesAddress allocSize env base I ↔ FitsWidth allocSize env I := by
  rcases rewrite_cases allocSize I with ⟨hrewrite, htype⟩ |
    ⟨gep, type, operand, iScale, hrewrite, htype, hadjusts⟩
  · refine iff_of_true (fun gep hgep => ?_) fun type htype' => ?_
    · exact absurd (hrewrite.symm.trans hgep) (Option.some_ne_none gep).symm
    · exact absurd (htype.symm.trans htype') (Option.some_ne_none type).symm
  · cases hidx : I.idx.eval env with
    | none =>
        refine iff_of_true (fun _ _ p hp => ?_) fun _ _ _ _ _ v _ hv => ?_
        · rw [UglyGEP.address, hidx] at hp
          cases hp
        · exact absurd (hidx.symm.trans hv) (Option.some_ne_none v).symm
    | some v =>
        obtain ⟨x, hx, hvalue⟩ := eval_of_divideScale hadjusts.divideScale hidx
        have hnew : gep.address allocSize env base =
            some (base + (x * BitVec.ofNat width iScale).signExtend 64 *
              BitVec.ofNat 64 (allocSize type)) := by
          rw [GEP.address, hadjusts.NewIdx, eval_scaled hx]
          exact congrArg (fun n => some (base + _ * BitVec.ofNat 64 n)) hadjusts.stride
        have hold : I.address env base = some (base +
            (x * BitVec.ofNat width iScale * BitVec.ofNat width (allocSize type)).signExtend 64) := by
          rw [UglyGEP.address, hidx, hvalue]
          rfl
        have hoffset := byteOffset_eq_iff (x * BitVec.ofNat width iScale) (allocSize type)
        constructor
        · intro h type' htype' operand' iScale' hdivide v' x' _ hx'
          obtain rfl := Option.some.inj (htype.symm.trans htype')
          obtain ⟨rfl, rfl⟩ := Prod.mk.inj
            (Option.some.inj (hadjusts.divideScale.symm.trans hdivide))
          obtain rfl := Option.some.inj (hx.symm.trans hx')
          have heq := Option.some.inj (hnew.symm.trans (h gep hrewrite _ hold))
          exact hoffset.mp (add_left_cancel heq)
        · intro h gep' hgep p hp
          obtain rfl := Option.some.inj (hrewrite.symm.trans hgep)
          have hfits := hoffset.mpr (h type htype operand iScale hadjusts.divideScale v x hidx hx)
          rw [hnew, hfits, ← hp, hold]

/-- Eight bytes back, in 32 bits, over elements of eight bytes. -/
def eightBack : UglyGEP 32 :=
  ⟨.single 0, .single 0, .constant (BitVec.ofInt 32 (-8))⟩

/-- **A negative index of less than 64 bits** is taken for a large one. -/
theorem not_preservesAddress :
    ¬ ∀ (width : ℕ) (allocSize : Ty → ℕ) (env : Env) (base : BitVec 64) (I : UglyGEP width),
      PreservesAddress allocSize env base I := by
  intro h
  have heq := h 32 (fun _ => 8) (fun _ _ => 0) 0 eightBack _ rfl _ rfl
  exact absurd heq (by decide)

end UglyGEPKiller

end Borealis
