import Borealis.SMT.Support

/-!
# Range writes

What `writeExprRangeToMemory` says about the memory.  The new memory is a fresh array, so that it can
always be chosen to fit its axiom.  The axiom compares addresses with the operators `>=` and `<` of
bit vectors, which are signed, and its end is a sum that wraps: from the lower half of the address
space a range that reaches the upper half has no address in it at all.
-/

namespace Borealis

namespace SMT

variable {V : Type}

/-- The address is in the range of the axiom. -/
def signedWithin (start size inner : Pointer) : Prop :=
  start.sle inner ∧ inner.slt (start + size)

instance (start size inner : Pointer) : Decidable (signedWithin start size inner) := by
  unfold signedWithin
  infer_instance

/-- The address is one of the `size` addresses from `start`. -/
def Within (start size inner : Pointer) : Prop :=
  start.toNat ≤ inner.toNat ∧ inner.toNat < start.toNat + size.toNat

instance (start size inner : Pointer) : Decidable (Within start size inner) := by
  unfold Within
  infer_instance

/-- The range is empty, starts in the upper half, or ends before it. -/
def StaysInHalf (start size : Pointer) : Prop :=
  size = 0 ∨ 2 ^ 63 ≤ start.toNat ∨ start.toNat + size.toNat < 2 ^ 63

/-- The signed order puts the upper half below the lower one. -/
theorem toInt_eq (x : Pointer) :
    (x.toNat < 2 ^ 63 ∧ x.toInt = x.toNat) ∨
      (2 ^ 63 ≤ x.toNat ∧ x.toInt = (x.toNat : ℤ) - 2 ^ 64) := by
  have hpow : ((2 ^ 64 : ℕ) : ℤ) = 2 ^ 64 := by decide
  rw [BitVec.toInt_eq_toNat_cond, hpow]
  split
  · exact Or.inl ⟨by omega, rfl⟩
  · exact Or.inr ⟨by omega, rfl⟩

theorem signedWithin_iff_toInt (start size inner : Pointer) :
    signedWithin start size inner ↔
      start.toInt ≤ inner.toInt ∧ inner.toInt < (start + size).toInt := by
  unfold signedWithin
  rw [BitVec.sle_iff_toInt_le, BitVec.slt_iff_toInt_lt]

theorem signedWithin_iff {start size : Pointer} (hend : start.toNat + size.toNat ≤ 2 ^ 64)
    (hhalf : StaysInHalf start size) (inner : Pointer) :
    signedWithin start size inner ↔ Within start size inner := by
  have hsum : (start + size).toNat = (start.toNat + size.toNat) % 2 ^ 64 := BitVec.toNat_add _ _
  have hinner := inner.isLt
  rw [signedWithin_iff_toInt]
  unfold Within
  rcases hhalf with rfl | hupper | hlower
  · have hzero : (0 : Pointer).toNat = 0 := rfl
    have hsame : start + 0 = start := BitVec.add_zero start
    rw [hsame, hzero]
    constructor <;> intro h <;> omega
  · rcases toInt_eq start, toInt_eq inner, toInt_eq (start + size) with
      ⟨⟨_, _⟩ | ⟨_, _⟩, ⟨_, _⟩ | ⟨_, _⟩, ⟨_, _⟩ | ⟨_, _⟩⟩ <;>
      constructor <;> intro h <;> omega
  · rcases toInt_eq start, toInt_eq inner, toInt_eq (start + size) with
      ⟨⟨_, _⟩ | ⟨_, _⟩, ⟨_, _⟩ | ⟨_, _⟩, ⟨_, _⟩ | ⟨_, _⟩⟩ <;>
      constructor <;> intro h <;> omega

/-- From the lower half into the upper one, or up to it, there is nothing. -/
theorem not_signedWithin {start size : Pointer} (hend : start.toNat + size.toNat ≤ 2 ^ 64)
    (hhalf : ¬ StaysInHalf start size) (inner : Pointer) : ¬ signedWithin start size inner := by
  have hsum : (start + size).toNat = (start.toNat + size.toNat) % 2 ^ 64 := BitVec.toNat_add _ _
  rw [signedWithin_iff_toInt]
  unfold StaysInHalf at hhalf
  rw [not_or, not_or] at hhalf
  obtain ⟨_, hlower, hcross⟩ := hhalf
  intro h
  rcases toInt_eq start, toInt_eq inner, toInt_eq (start + size) with
    ⟨⟨_, _⟩ | ⟨_, _⟩, ⟨_, _⟩ | ⟨_, _⟩, ⟨_, _⟩ | ⟨_, _⟩⟩ <;> omega

/-! ## The memory after a range write -/

namespace ExecutionContext

variable (unknown : Bool) (ctx : ExecutionContext V) (operation : ℕ) (start : ValueExpr V Pointer)
  (size : BitVec 64) (val : ValueExpr V Byte) (memspace : ℕ)

/-- The assignment satisfies all axioms of the context. -/
def Models (ctx : ExecutionContext V) (ρ : Assignment V) : Prop :=
  ∀ ax ∈ ctx.contextAxioms, ax ρ

/-- What a memory space holds. -/
def memory : MemArray V :=
  (ctx.peek unknown operation 0 (memoryId memspace)).mem

/-- The array constant that a range write asks for. -/
def rangeName (operation memspace : ℕ) : ArrayName :=
  .free operation (memoryId memspace) 1

/-- A range write does what it should: in every model the range holds the value and the rest of the
memory is as before, and every model before the write, in which the axioms of its operands hold, is
a model after it with another value for the new array. -/
def WritesRange : Prop :=
  (∀ ρ, (ctx.writeExprRangeToMemory unknown operation start size val memspace).Models ρ →
    (start.expr ρ).toNat + size.toNat ≤ 2 ^ 64 →
      ∀ inner, (ctx.writeExprRangeToMemory unknown operation start size val memspace).memory unknown
          operation memspace ρ inner =
        if Within (start.expr ρ) size inner then val.expr ρ
        else ctx.memory unknown operation memspace ρ inner) ∧
  (∀ ρ, ctx.Models ρ → start.axioms ρ → val.axioms ρ →
    ∃ value, (ctx.writeExprRangeToMemory unknown operation start size val memspace).Models
      (ρ.setArray (rangeName operation memspace) value))

/-- In every model before the write the range stays in its half of the address space, or holds the
value already. -/
def RangeStays : Prop :=
  ∀ ρ, ctx.Models ρ → start.axioms ρ → val.axioms ρ →
    (start.expr ρ).toNat + size.toNat ≤ 2 ^ 64 →
      StaysInHalf (start.expr ρ) size ∨
        ∀ inner, Within (start.expr ρ) size inner →
          ctx.memory unknown operation memspace ρ inner = val.expr ρ

/-- The operands and the context do not mention the new array. -/
structure RangeFresh : Prop where
  context : ctx.Ignores {rangeName operation memspace}
  base : SMT.Ignores {rangeName operation memspace} start.expr
  baseAxioms : SMT.Ignores {rangeName operation memspace} start.axioms
  value : SMT.Ignores {rangeName operation memspace} val.expr
  valueAxioms : SMT.Ignores {rangeName operation memspace} val.axioms

variable {unknown ctx operation start size val memspace}

theorem touch_contextAxioms (id : String) :
    (ctx.touch unknown operation id).contextAxioms = ctx.contextAxioms := by
  unfold touch
  cases ctx.memArrays id <;> rfl

/-- The new memory is the new array. -/
theorem memory_writeExprRangeToMemory :
    (ctx.writeExprRangeToMemory unknown operation start size val memspace).memory unknown operation
      memspace = MemArray.mkArray (rangeName operation memspace) := by
  unfold memory peek writeExprRangeToMemory
  dsimp only
  rw [set_self]
  rfl

/-- The models after the write are the models before it that satisfy the axiom. -/
theorem models_writeExprRangeToMemory (ρ : Assignment V) :
    (ctx.writeExprRangeToMemory unknown operation start size val memspace).Models ρ ↔
      ((∀ inner, ρ.array (rangeName operation memspace) inner =
          if signedWithin (start.expr ρ) size inner then val.expr ρ
          else ctx.memory unknown operation memspace ρ inner) ∧
        start.axioms ρ ∧ val.axioms ρ) ∧ ctx.Models ρ := by
  have haxiom : rangeAxiom (getEmptyMemoryArray operation (memoryId memspace) 1)
      (ctx.memory unknown operation memspace) start size val ρ ↔
      (∀ inner, ρ.array (rangeName operation memspace) inner =
          if signedWithin (start.expr ρ) size inner then val.expr ρ
          else ctx.memory unknown operation memspace ρ inner) ∧
        start.axioms ρ ∧ val.axioms ρ := by
    unfold rangeAxiom
    refine and_congr (forall_congr' fun inner => ?_) Iff.rfl
    split
    · next hs =>
        rw [if_pos (show signedWithin (start.expr ρ) size inner from hs)]
        exact Iff.rfl
    · next hs =>
        rw [if_neg (show ¬ signedWithin (start.expr ρ) size inner from hs)]
        exact Iff.rfl
  unfold Models
  change (∀ ax ∈ rangeAxiom _ _ start size val :: (ctx.touch unknown operation _).contextAxioms,
    ax ρ) ↔ _
  rw [List.forall_mem_cons, touch_contextAxioms]
  exact and_congr haxiom Iff.rfl

theorem Ignores.models {S : Set ArrayName} (h : ctx.Ignores S) {ρ ρ' : Assignment V}
    (hρ : AgreeOff S ρ ρ') (hmodels : ctx.Models ρ) : ctx.Models ρ' := by
  intro ax hax
  rw [← h.axioms ax hax ρ ρ' hρ]
  exact hmodels ax hax

theorem RangeFresh.memory (h : RangeFresh ctx operation start val memspace) :
    SMT.Ignores {rangeName operation memspace} (ctx.memory unknown operation memspace) := by
  apply h.context.peek
  intro hmem
  obtain ⟨-, -, hindex⟩ := ArrayName.free.inj hmem
  exact absurd hindex (by decide)

/-- The new array can be chosen to satisfy the axiom. -/
theorem RangeFresh.models_setArray (h : RangeFresh ctx operation start val memspace)
    {ρ : Assignment V} (hmodels : ctx.Models ρ) (hstart : start.axioms ρ) (hval : val.axioms ρ) :
    (ctx.writeExprRangeToMemory unknown operation start size val memspace).Models
      (ρ.setArray (rangeName operation memspace) fun inner =>
        if signedWithin (start.expr ρ) size inner then val.expr ρ
        else ctx.memory unknown operation memspace ρ inner) := by
  have hρ : AgreeOff {rangeName operation memspace} ρ (ρ.setArray (rangeName operation memspace)
      fun inner => if signedWithin (start.expr ρ) size inner then val.expr ρ
        else ctx.memory unknown operation memspace ρ inner) :=
    Assignment.agreeOff_setArray (Set.mem_singleton _) ρ _
  rw [models_writeExprRangeToMemory, Assignment.setArray_self, ← h.base ρ _ hρ,
    ← h.baseAxioms ρ _ hρ, ← h.value ρ _ hρ, ← h.valueAxioms ρ _ hρ, ← h.memory ρ _ hρ]
  exact ⟨⟨fun _ => rfl, hstart, hval⟩, h.context.models hρ hmodels⟩

/-- An operand that is a constant. -/
def constant {α : Type} (value : α) : ValueExpr V α :=
  ⟨fun _ => value, fun _ => True⟩

theorem models_init (localMemoryStart localMemoryEnd : BitVec 64) (ρ : Assignment V) :
    (init unknown operation localMemoryStart localMemoryEnd).Models ρ := by
  intro ax hax
  exact absurd hax List.not_mem_nil

/-- Two bytes on both sides of the middle of the address space are not written. -/
theorem writeExprRangeToMemory_misses_the_middle :
    ¬ WritesRange (V := Unit) false (init false 0 0 0) 1 (constant 0x7fffffffffffffff) 2
      (constant 1) 0 := by
  intro hwrites
  have hmodels : (writeExprRangeToMemory (V := Unit) false (init false 0 0 0) 1
      (constant 0x7fffffffffffffff) 2 (constant 1) 0).Models ⟨fun _ => (), fun _ _ => 0xff⟩ := by
    rw [models_writeExprRangeToMemory]
    refine ⟨⟨fun inner => ?_, trivial, trivial⟩, models_init 0 0 _⟩
    rw [if_neg (not_signedWithin (by decide) (by unfold StaysInHalf; decide) inner)]
    rfl
  have hwritten := hwrites.1 _ hmodels (by decide) 0x7fffffffffffffff
  rw [memory_writeExprRangeToMemory, if_pos (by decide)] at hwritten
  exact absurd hwritten (by decide)

/-- A range write does what it should when, and only when, no range that leaves its half of the
address space would change the memory. -/
theorem writesRange_iff (h : RangeFresh ctx operation start val memspace) :
    WritesRange unknown ctx operation start size val memspace ↔
      RangeStays unknown ctx operation start size val memspace := by
  constructor
  · intro hwrites ρ hmodels hstart hval hend
    by_cases hhalf : StaysInHalf (start.expr ρ) size
    · exact Or.inl hhalf
    · refine Or.inr fun inner hinner => ?_
      -- in the model that the write extends this one to, the axiom keeps the old contents
      let value (inner : Pointer) : Byte :=
        if signedWithin (start.expr ρ) size inner then val.expr ρ
        else ctx.memory unknown operation memspace ρ inner
      have hnew : (ctx.writeExprRangeToMemory unknown operation start size val memspace).Models
          (ρ.setArray (rangeName operation memspace) value) := h.models_setArray hmodels hstart hval
      have hρ := Assignment.agreeOff_setArray (Set.mem_singleton (rangeName operation memspace)) ρ
        value
      have hwritten := hwrites.1 _ hnew (by rwa [← h.base ρ _ hρ]) inner
      rw [← h.base ρ _ hρ, ← h.value ρ _ hρ, if_pos hinner, memory_writeExprRangeToMemory] at hwritten
      unfold MemArray.mkArray at hwritten
      rw [Assignment.setArray_self] at hwritten
      exact (if_neg (not_signedWithin hend hhalf inner)).symm.trans hwritten
  · intro hstays
    refine ⟨fun ρ hmodels hend inner => ?_, fun ρ hmodels hstart hval =>
      ⟨_, h.models_setArray hmodels hstart hval⟩⟩
    rw [models_writeExprRangeToMemory] at hmodels
    obtain ⟨⟨hnew, hstart, hval⟩, hold⟩ := hmodels
    rw [memory_writeExprRangeToMemory]
    change ρ.array (rangeName operation memspace) inner = _
    rw [hnew inner]
    rcases hstays ρ hold hstart hval hend with hhalf | hsame
    · exact if_congr (signedWithin_iff hend hhalf inner) rfl rfl
    · by_cases hinner : Within (start.expr ρ) size inner
      · rw [if_pos hinner, hsame inner hinner]
        exact ite_self _
      · by_cases hhalf : StaysInHalf (start.expr ρ) size
        · exact if_congr (signedWithin_iff hend hhalf inner) rfl rfl
        · rw [if_neg hinner, if_neg (not_signedWithin hend hhalf inner)]

/-- A range in the lower half of a new context is written. -/
theorem writesRange_iff_low :
    WritesRange (V := Unit) false (init false 0 0 0) 1 (constant 0x1000) 2 (constant 1) 0 := by
  refine (writesRange_iff ⟨Ignores.init ?_ 0 0, .const _, .const _, .const _, .const _⟩).mpr ?_
  · intro id hmem
    obtain ⟨hoperation, -, -⟩ := ArrayName.free.inj hmem
    exact absurd hoperation (by decide)
  · intro ρ _ _ _ _
    have hlow : (0x1000#64).toNat + (2#64).toNat < 2 ^ 63 := by decide
    exact Or.inl (Or.inr (Or.inr hlow))

end ExecutionContext

end SMT

end Borealis
