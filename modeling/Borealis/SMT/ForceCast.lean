import Borealis.SMT.ExecutionContext

/-!
# Casts to a fixed width

`forceCast` of `BitVector<N>`, which brings a boolean or a bit vector of any width to `N` bits, and
the writes that go through it: the overloads of `writeExprToMemory` and `writeProperty` for a
`DynBV` cast the value to the byte of the memory array and store that.

`smt::extract` takes the highest index that is kept, not the number of bits, so a value that is wider
than `N` comes out of the cast with `N + 1` bits.  The engine refuses to store such a value in an
array of 64-bit cells.
-/

namespace Borealis

namespace SMT

variable {V : Type}

/-- A `ValueExpr`, whose sort is only known at run time. -/
inductive Dynamic (V : Type)
  | bool (e : ValueExpr V Bool)
  | bv (e : AnyBitVector V)

namespace Dynamic

/-- `forceCast` of `BitVector<N>`: what `generator<BitVector<N>>::convert` makes of the expression,
with the axiom that it has. -/
def forceCast (N : ℕ) : Dynamic V → AnyBitVector V
  | .bool e => ⟨N, fun ρ => if e.expr ρ then 1#N else 0#N, e.axioms⟩
  | .bv e =>
    if N = e.bitSize then e
    else if N > e.bitSize then ⟨N, fun ρ => (e.expr ρ).signExtend N, e.axioms⟩
    else ⟨N - 0 + 1, fun ρ => (e.expr ρ).extractLsb N 0, e.axioms⟩

/-- The `N` bits that stand for an expression: one or zero for a boolean, the sign extension of a
narrower bit vector, the low bits of a wider one. -/
def converted (N : ℕ) : Dynamic V → Assignment V → BitVec N
  | .bool e => fun ρ => if e.expr ρ then 1 else 0
  | .bv e => fun ρ => if e.bitSize ≤ N then (e.expr ρ).signExtend N else (e.expr ρ).setWidth N

def axioms : Dynamic V → Assignment V → Prop
  | .bool e => e.axioms
  | .bv e => e.axioms

/-- A boolean, or a bit vector of at most `N` bits. -/
def Fits (N : ℕ) : Dynamic V → Prop
  | .bool _ => True
  | .bv e => e.bitSize ≤ N

/-- The expression of `N` bits that a cast to `N` bits should give. -/
def ofWidth (N : ℕ) (e : Dynamic V) : AnyBitVector V :=
  ⟨N, e.converted N, e.axioms⟩

theorem forceCast_of_fits {N : ℕ} {e : Dynamic V} (h : e.Fits N) :
    e.forceCast N = e.ofWidth N := by
  cases e with
  | bool e => rfl
  | bv e =>
      obtain ⟨size, expr, axioms⟩ := e
      have hle : size ≤ N := h
      unfold forceCast ofWidth converted
      dsimp only
      rcases Nat.lt_or_eq_of_le hle with hlt | rfl
      · rw [if_neg (Nat.ne_of_gt hlt), if_pos hlt]
        simp only [if_pos hle]
        rfl
      · rw [if_pos rfl]
        simp only [le_refl, if_true, BitVec.signExtend_eq]
        rfl

/-- Of a wider bit vector the cast keeps one bit too many. -/
theorem forceCast_bitSize_of_not_fits {N : ℕ} {e : Dynamic V} (h : ¬ e.Fits N) :
    (e.forceCast N).bitSize = N + 1 := by
  cases e with
  | bool e => exact absurd trivial h
  | bv e =>
      have hlt : N < e.bitSize := Nat.lt_of_not_le h
      unfold forceCast
      dsimp only
      rw [if_neg (Nat.ne_of_lt hlt), if_neg (Nat.not_lt_of_gt hlt)]
      rfl

end Dynamic

/-- `store` of a `Byte`: `splitBytes` gives the value itself, grown to the size of a cell, and there
is one case.  The engine stores only what is as wide as a cell. -/
def MemArray.storeByte (a : MemArray V) (i : Assignment V → Pointer) (e : AnyBitVector V) :
    Option (MemArray V) :=
  let byte := if e.bitSize < 64 then ⟨64, fun ρ => (e.expr ρ).signExtend 64, e.axioms⟩ else e
  if h : byte.bitSize = 64 then
    some fun ρ => Function.update (a ρ) (i ρ + BitVec.ofNat 64 0) ((byte.expr ρ).cast h)
  else none

namespace ExecutionContext

variable (unknown : Bool)

/-- `writeProperty` for a `DynBV`; without a result the engine has refused the store. -/
def writePropertyDyn (ctx : ExecutionContext V) (operation : ℕ) (id : String)
    (ix : Assignment V → Pointer) (val : Dynamic V) : Option (ExecutionContext V) :=
  let (a, ctx) := ctx.get unknown operation id
  (a.mem.storeByte ix (val.forceCast 64)).map fun mem => ctx.set id ⟨mem, a.version + 1⟩

/-- `writeExprToMemory` for a `DynBV`. -/
def writeExprToMemoryDyn (ctx : ExecutionContext V) (operation : ℕ) (ix : Assignment V → Pointer)
    (val : Dynamic V) (memspace : ℕ) : Option (ExecutionContext V) :=
  ctx.writePropertyDyn unknown operation (memoryId memspace) ix val

/-- The context in which one cell of an array holds the conversion of the value to a byte, and every
other cell and array is as `get` leaves it. -/
def withCell (ctx : ExecutionContext V) (operation : ℕ) (id : String)
    (ix : Assignment V → Pointer) (val : Dynamic V) : ExecutionContext V :=
  let (a, ctx) := ctx.get unknown operation id
  ctx.set id ⟨fun ρ => Function.update (a.mem ρ) (ix ρ) (val.converted 64 ρ), a.version + 1⟩

end ExecutionContext

theorem MemArray.storeByte_ofWidth (a : MemArray V) (i : Assignment V → Pointer) (e : Dynamic V) :
    a.storeByte i (e.ofWidth 64) =
      some fun ρ => Function.update (a ρ) (i ρ) (e.converted 64 ρ) := by
  unfold storeByte Dynamic.ofWidth
  rw [if_neg (Nat.lt_irrefl 64), dif_pos rfl]
  simp only [BitVec.add_zero, BitVec.cast_eq]

/-- A value that is wider than a cell is not stored. -/
theorem MemArray.storeByte_of_lt (a : MemArray V) (i : Assignment V → Pointer) {e : AnyBitVector V}
    (h : 64 < e.bitSize) : a.storeByte i e = none := by
  unfold storeByte
  rw [if_neg (by omega), dif_neg (by omega)]

/-- The cast gives `N` bits, and the writes that go through it one cell, for the booleans and the bit
vectors that are not wider than that, and for no others. -/
theorem forceCast_iff_fits :
    (∀ (N : ℕ) (e : Dynamic V), e.forceCast N = ⟨N, e.converted N, e.axioms⟩ ↔ e.Fits N) ∧
    (∀ (unknown : Bool) (ctx : ExecutionContext V) (operation : ℕ) (id : String)
      (ix : Assignment V → Pointer) (val : Dynamic V),
      ctx.writePropertyDyn unknown operation id ix val =
        some (ctx.withCell unknown operation id ix val) ↔ val.Fits 64) ∧
    (∀ (unknown : Bool) (ctx : ExecutionContext V) (operation : ℕ) (ix : Assignment V → Pointer)
      (val : Dynamic V) (memspace : ℕ),
      ctx.writeExprToMemoryDyn unknown operation ix val memspace =
        some (ctx.withCell unknown operation (memoryId memspace) ix val) ↔ val.Fits 64) := by
  have hcast : ∀ (N : ℕ) (e : Dynamic V), e.forceCast N = e.ofWidth N ↔ e.Fits N := by
    intro N e
    refine ⟨fun h => ?_, Dynamic.forceCast_of_fits⟩
    by_contra hfits
    have hsize := Dynamic.forceCast_bitSize_of_not_fits hfits
    rw [h] at hsize
    exact absurd hsize (Nat.ne_of_lt (Nat.lt_succ_self N))
  have hwrite : ∀ (unknown : Bool) (ctx : ExecutionContext V) (operation : ℕ) (id : String)
      (ix : Assignment V → Pointer) (val : Dynamic V),
      ctx.writePropertyDyn unknown operation id ix val =
        some (ctx.withCell unknown operation id ix val) ↔ val.Fits 64 := by
    intro unknown ctx operation id ix val
    unfold ExecutionContext.writePropertyDyn ExecutionContext.withCell
    dsimp only
    constructor
    · intro h
      by_contra hfits
      have hsize := Dynamic.forceCast_bitSize_of_not_fits hfits
      rw [MemArray.storeByte_of_lt _ _ (by omega)] at h
      cases h
    · intro hfits
      rw [Dynamic.forceCast_of_fits hfits, MemArray.storeByte_ofWidth]
      rfl
  exact ⟨hcast, hwrite, fun unknown ctx operation ix val memspace =>
    hwrite unknown ctx operation (memoryId memspace) ix val⟩

/-- A value of 16 bits that is cast to 8 bits comes out with 9, so that a write of a value of 65
bits has no result. -/
theorem forceCast_keeps_a_bit_too_many :
    ((Dynamic.bv (AnyBitVector.mkConst (V := Unit) 16 0x1ff)).forceCast 8).bitSize ≠ 8 ∧
    (ExecutionContext.init (V := Unit) false 0 0 0).writeExprToMemoryDyn false 1 (fun _ => 1)
      (.bv (AnyBitVector.mkConst 65 0)) 0 ≠
        some ((ExecutionContext.init false 0 0 0).withCell false 1 (memoryId 0) (fun _ => 1)
          (.bv (AnyBitVector.mkConst 65 0))) := by
  refine ⟨by decide, fun h => ?_⟩
  unfold ExecutionContext.writeExprToMemoryDyn ExecutionContext.writePropertyDyn at h
  dsimp only at h
  rw [MemArray.storeByte_of_lt _ _ (by decide)] at h
  cases h

end SMT

end Borealis
