import Borealis.SMT.Run
import Mathlib.Data.Set.Basic

/-!
# What an expression does not mention

An expression ignores a set of array constants when its value is the same under any two assignments
that differ on this set only.  The constants that the operations of a run make are new: whatever was
there before ignores them, so their values can still be chosen.
-/

namespace Borealis

namespace SMT

variable {V α β : Type}

/-- Two assignments that differ at most on these array constants. -/
structure AgreeOff (S : Set ArrayName) (ρ ρ' : Assignment V) : Prop where
  var : ρ.var = ρ'.var
  array : ∀ name, name ∉ S → ρ.array name = ρ'.array name

theorem AgreeOff.refl (S : Set ArrayName) (ρ : Assignment V) : AgreeOff S ρ ρ :=
  ⟨rfl, fun _ _ => rfl⟩

theorem AgreeOff.trans {S : Set ArrayName} {ρ ρ' ρ'' : Assignment V} (h : AgreeOff S ρ ρ')
    (h' : AgreeOff S ρ' ρ'') : AgreeOff S ρ ρ'' :=
  ⟨h.var.trans h'.var, fun name hname => (h.array name hname).trans (h'.array name hname)⟩

theorem AgreeOff.mono {S T : Set ArrayName} (hST : S ⊆ T) {ρ ρ' : Assignment V}
    (h : AgreeOff S ρ ρ') : AgreeOff T ρ ρ' :=
  ⟨h.var, fun name hname => h.array name fun hS => hname (hST hS)⟩

/-- The assignment with another value for an array constant. -/
def Assignment.setArray (ρ : Assignment V) (name : ArrayName) (value : Pointer → Byte) :
    Assignment V :=
  { ρ with array := Function.update ρ.array name value }

theorem Assignment.setArray_self (ρ : Assignment V) (name : ArrayName) (value : Pointer → Byte) :
    (ρ.setArray name value).array name = value := by
  unfold setArray
  exact Function.update_self _ _ _

theorem Assignment.agreeOff_setArray {S : Set ArrayName} {name : ArrayName} (hname : name ∈ S)
    (ρ : Assignment V) (value : Pointer → Byte) : AgreeOff S ρ (ρ.setArray name value) := by
  refine ⟨rfl, fun other hother => ?_⟩
  have hne : other ≠ name := fun h => hother (h ▸ hname)
  exact (Function.update_of_ne hne value ρ.array).symm

/-- The value does not depend on these array constants. -/
def Ignores (S : Set ArrayName) (e : Assignment V → α) : Prop :=
  ∀ ρ ρ', AgreeOff S ρ ρ' → e ρ = e ρ'

namespace Ignores

variable {S T : Set ArrayName}

theorem mono (hST : S ⊆ T) {e : Assignment V → α} (h : Ignores T e) : Ignores S e :=
  fun ρ ρ' hρ => h ρ ρ' (hρ.mono hST)

theorem const (value : α) : Ignores S fun _ : Assignment V => value :=
  fun _ _ _ => rfl

theorem mkArray {name : ArrayName} (hname : name ∉ S) :
    Ignores S (MemArray.mkArray (V := V) name) :=
  fun _ _ hρ => hρ.array name hname

theorem select {a : MemArray V} {i : Assignment V → Pointer} (ha : Ignores S a)
    (hi : Ignores S i) (elemBitSize : ℕ) : Ignores S (a.select i elemBitSize) := by
  intro ρ ρ' hρ
  unfold MemArray.select
  rw [ha ρ ρ' hρ, hi ρ ρ' hρ]

theorem store {a : MemArray V} {i : Assignment V → Pointer} {e : AnyBitVector V}
    (ha : Ignores S a) (hi : Ignores S i) (he : Ignores S e.expr) : Ignores S (a.store i e) := by
  intro ρ ρ' hρ
  unfold MemArray.store
  rw [ha ρ ρ' hρ, hi ρ ρ' hρ, he ρ ρ' hρ]

theorem switch {cases : List ((Assignment V → Bool) × MemArray V)} {default : MemArray V}
    (hcases : ∀ c ∈ cases, Ignores S c.1 ∧ Ignores S c.2) (hdefault : Ignores S default) :
    Ignores S (switch cases default) := by
  intro ρ ρ' hρ
  unfold SMT.switch
  rw [hdefault ρ ρ' hρ]
  generalize default ρ' = value
  induction cases generalizing value with
  | nil => rfl
  | cons c cases ih =>
      obtain ⟨hcond, harray⟩ := hcases c List.mem_cons_self
      rw [List.foldl_cons, List.foldl_cons, hcond ρ ρ' hρ, harray ρ ρ' hρ]
      exact ih (fun d hd => hcases d (List.mem_cons_of_mem _ hd)) _

theorem getNoMemoryArray {unknown : Bool} {operation index : ℕ} {id : String}
    (hname : .free operation id index ∉ S) :
    Ignores S (getNoMemoryArray (V := V) unknown operation id index) := by
  unfold SMT.getNoMemoryArray
  split
  · exact mkArray hname
  · exact fun _ _ _ => rfl

end Ignores

/-- The constants that the operations from this one on make. -/
def madeFrom (n : ℕ) : Set ArrayName :=
  fun name => ∃ operation id index, n ≤ operation ∧ name = .free operation id index

theorem mem_madeFrom {n operation : ℕ} (h : n ≤ operation) (id : String) (index : ℕ) :
    .free operation id index ∈ madeFrom n :=
  ⟨operation, id, index, h, rfl⟩

theorem not_mem_madeFrom {n operation : ℕ} (h : operation < n) (id : String) (index : ℕ) :
    .free operation id index ∉ madeFrom n := by
  rintro ⟨operation', id', index', hle, heq⟩
  obtain ⟨rfl, -, -⟩ := ArrayName.free.inj heq
  omega

theorem madeFrom_mono {n n' : ℕ} (h : n ≤ n') : madeFrom n' ⊆ madeFrom n := by
  rintro name ⟨operation, id, index, hle, rfl⟩
  exact mem_madeFrom (h.trans hle) id index

theorem madeFrom_succ_subset (n : ℕ) : madeFrom (n + 1) ⊆ madeFrom n :=
  madeFrom_mono (Nat.le_succ n)

/-! ## Contexts -/

namespace ExecutionContext

/-- Neither the arrays nor the axioms of a context mention these constants. -/
structure Ignores (S : Set ArrayName) (ctx : ExecutionContext V) : Prop where
  arrays : ∀ id a, ctx.memArrays id = some a → SMT.Ignores S a.mem
  initial : ∀ id a, ctx.initialMemArrays id = some a → SMT.Ignores S a.mem
  axioms : ∀ ax ∈ ctx.contextAxioms, SMT.Ignores S ax

namespace Ignores

variable {unknown : Bool} {S T : Set ArrayName} {ctx : ExecutionContext V}

theorem mono (hST : S ⊆ T) (h : ctx.Ignores T) : ctx.Ignores S where
  arrays id a ha := (h.arrays id a ha).mono hST
  initial id a ha := (h.initial id a ha).mono hST
  axioms ax hax := (h.axioms ax hax).mono hST

theorem peek (h : ctx.Ignores S) {operation index : ℕ} {id : String}
    (hname : .free operation id index ∉ S) :
    SMT.Ignores S (ctx.peek unknown operation index id).mem := by
  unfold ExecutionContext.peek
  cases hid : ctx.memArrays id with
  | some a => exact h.arrays id a hid
  | none => exact SMT.Ignores.getNoMemoryArray hname

/-- `get` creates an array that is a constant or made of a new one. -/
theorem touch (h : ctx.Ignores S) {operation : ℕ} {id : String}
    (hname : .free operation id 0 ∉ S) : (ctx.touch unknown operation id).Ignores S := by
  cases hid : ctx.memArrays id with
  | some a =>
      rw [touch_of_some unknown hid]
      exact h
  | none =>
      rw [touch_of_none unknown hid]
      have hnew : SMT.Ignores S (SMT.getNoMemoryArray (V := V) unknown operation id 0) :=
        SMT.Ignores.getNoMemoryArray hname
      refine ⟨fun id' a ha => ?_, fun id' a ha => ?_, h.axioms⟩
      · rcases of_emplace ha with ha | rfl
        · exact h.arrays id' a ha
        · exact hnew
      · rcases of_emplace ha with ha | rfl
        · exact h.initial id' a ha
        · exact hnew

theorem set (h : ctx.Ignores S) {value : MemArrayWithVersion V} (hvalue : SMT.Ignores S value.mem)
    (id : String) : (ctx.set id value).Ignores S := by
  refine ⟨fun id' a ha => ?_, h.initial, h.axioms⟩
  by_cases hne : id' = id
  · subst hne
    rw [set_self] at ha
    obtain rfl := Option.some.inj ha
    exact hvalue
  · rw [set_of_ne hne] at ha
    exact h.arrays id' a ha

theorem freshBounds {operation memspace : ℕ}
    (hname : .free operation (gepBoundsId memspace) 0 ∉ S) :
    SMT.Ignores S (freshBounds (V := V) operation memspace).mem :=
  (SMT.Ignores.mkArray hname).store (.const _) (.const _)

theorem gepBounds (h : ctx.Ignores S) {operation memspace : ℕ}
    (hname : .free operation (gepBoundsId memspace) 0 ∉ S) :
    SMT.Ignores S (ctx.gepBounds operation memspace).1.mem ∧
      (ctx.gepBounds operation memspace).2.Ignores S := by
  unfold ExecutionContext.gepBounds
  cases hid : ctx.memArrays (gepBoundsId memspace) with
  | some a => exact ⟨h.arrays _ a hid, h⟩
  | none => exact ⟨freshBounds hname, h.set (freshBounds hname) _⟩

theorem boundAxiom {bounds : MemArray V} (hbounds : SMT.Ignores S bounds)
    {p : Assignment V → Pointer} {bound : AnyBitVector V} (hp : SMT.Ignores S p)
    (hbound : SMT.Ignores S bound.expr) (haxioms : SMT.Ignores S bound.axioms) :
    SMT.Ignores S (boundAxiom bounds p bound) := by
  intro ρ ρ' hρ
  unfold ExecutionContext.boundAxiom
  rw [hbounds.select hp bound.bitSize ρ ρ' hρ, hbound ρ ρ' hρ, haxioms ρ ρ' hρ]

theorem rangeAxiom {newMem currentMemory : MemArray V} (hnew : SMT.Ignores S newMem)
    (hcurrent : SMT.Ignores S currentMemory) {start : ValueExpr V Pointer}
    {val : ValueExpr V Byte} (size : BitVec 64) (hstart : SMT.Ignores S start.expr)
    (hstart' : SMT.Ignores S start.axioms) (hval : SMT.Ignores S val.expr)
    (hval' : SMT.Ignores S val.axioms) :
    SMT.Ignores S (rangeAxiom newMem currentMemory start size val) := by
  intro ρ ρ' hρ
  unfold ExecutionContext.rangeAxiom
  rw [hnew ρ ρ' hρ, hcurrent ρ ρ' hρ, hstart ρ ρ' hρ, hstart' ρ ρ' hρ, hval ρ ρ' hρ,
    hval' ρ ρ' hρ]

theorem writeBound (h : ctx.Ignores S) {operation memspace : ℕ}
    (hname : .free operation (gepBoundsId memspace) 0 ∉ S) {p : Assignment V → Pointer}
    {bound : AnyBitVector V} (hp : SMT.Ignores S p) (hbound : SMT.Ignores S bound.expr)
    (haxioms : SMT.Ignores S bound.axioms) :
    (ctx.writeBound operation p bound memspace).Ignores S := by
  obtain ⟨hbounds, hctx⟩ := h.gepBounds hname
  exact ⟨hctx.arrays, hctx.initial,
    List.forall_mem_cons.mpr ⟨boundAxiom hbounds hp hbound haxioms, hctx.axioms⟩⟩

theorem writeProperty (h : ctx.Ignores S) {operation : ℕ} {id : String}
    (hname : .free operation id 0 ∉ S) {ix : Assignment V → Pointer} {val : AnyBitVector V}
    (hix : SMT.Ignores S ix) (hval : SMT.Ignores S val.expr) :
    (ctx.writeProperty unknown operation id ix val).Ignores S :=
  (h.touch hname).set ((h.peek hname).store hix hval) id

theorem writeExprRangeToMemory (h : ctx.Ignores S) {operation memspace : ℕ}
    (hname : ∀ index, .free operation (memoryId memspace) index ∉ S)
    {start : ValueExpr V Pointer} {val : ValueExpr V Byte} {size : BitVec 64}
    (hstart : SMT.Ignores S start.expr) (hstart' : SMT.Ignores S start.axioms)
    (hval : SMT.Ignores S val.expr) (hval' : SMT.Ignores S val.axioms) :
    (ctx.writeExprRangeToMemory unknown operation start size val memspace).Ignores S := by
  have hctx : (ctx.touch unknown operation (memoryId memspace)).Ignores S := h.touch (hname 0)
  have hcurrent : SMT.Ignores S (ctx.peek unknown operation 0 (memoryId memspace)).mem :=
    h.peek (hname 0)
  have hnew : SMT.Ignores S (getEmptyMemoryArray (V := V) operation (memoryId memspace) 1) :=
    SMT.Ignores.mkArray (hname 1)
  have haxioms : ExecutionContext.Ignores S
      { ctx.touch unknown operation (memoryId memspace) with
        contextAxioms := ExecutionContext.rangeAxiom
          (getEmptyMemoryArray operation (memoryId memspace) 1)
          (ctx.peek unknown operation 0 (memoryId memspace)).mem start size val ::
            (ctx.touch unknown operation (memoryId memspace)).contextAxioms } :=
    ⟨hctx.arrays, hctx.initial, List.forall_mem_cons.mpr
      ⟨rangeAxiom hnew hcurrent size hstart hstart' hval hval', hctx.axioms⟩⟩
  exact haxioms.set hnew _

theorem init {operation : ℕ} (hname : ∀ id, .free operation id 0 ∉ S)
    (localMemoryStart localMemoryEnd : BitVec 64) :
    (init (V := V) unknown operation localMemoryStart localMemoryEnd).Ignores S := by
  refine ⟨fun id a ha => ?_, fun id a ha => ?_, fun ax hax => nomatch hax⟩
  · by_cases hne : id = gepBoundsId 0
    · subst hne
      obtain rfl := Option.some.inj ((set_self _ _ _).symm.trans ha)
      exact freshBounds (hname _)
    · rw [init_of_ne unknown hne] at ha
      cases ha
  · rw [init_initialMemArrays] at ha
    rcases of_emplace ha with ha | rfl
    · cases ha
    · exact SMT.Ignores.getNoMemoryArray (hname _)

end Ignores

end ExecutionContext

/-! ## Operations without branches -/

/-- Operations that neither merge branches nor externalise the arrays. -/
def Op.isBasic : Op V → Bool
  | .switchOn _ => false
  | .externalSwitchOn _ _ => false
  | .externalizeEverythingMutable _ => false
  | _ => true

/-- The expressions that an operation is called with mention none of these constants. -/
def Op.Ignores (S : Set ArrayName) : Op V → Prop
  | .getGlobalPtr _ _ origSize => SMT.Ignores S origSize.expr ∧ SMT.Ignores S origSize.axioms
  | .getLocalPtr _ _ origSize => SMT.Ignores S origSize.expr ∧ SMT.Ignores S origSize.axioms
  | .writeBound p bound _ =>
    SMT.Ignores S p ∧ SMT.Ignores S bound.expr ∧ SMT.Ignores S bound.axioms
  | .writeExprToMemory ix val _ => SMT.Ignores S ix ∧ SMT.Ignores S val.expr
  | .writeExprRangeToMemory start _ val _ =>
    (SMT.Ignores S start.expr ∧ SMT.Ignores S start.axioms) ∧
      SMT.Ignores S val.expr ∧ SMT.Ignores S val.axioms
  | .writeProperty _ ix val => SMT.Ignores S ix ∧ SMT.Ignores S val.expr
  | _ => True

theorem Op.run_snd {op : Op V} (hop : op.isBasic = true) (unknown : Bool)
    (ctx : ExecutionContext V) (n : ℕ) : (op.run unknown ctx n).2 = n + 1 := by
  cases op with
  | switchOn branches => cases hop
  | externalSwitchOn branches pfix => cases hop
  | externalizeEverythingMutable pfix => cases hop
  | _ => rw [Op.run]

/-- What an operation mentions is in its expressions, in the context, or new. -/
theorem ignores_step {op : Op V} (hop : op.isBasic = true) {S : Set ArrayName}
    (hopS : op.Ignores S) (unknown : Bool) {ctx : ExecutionContext V} (hctx : ctx.Ignores S)
    {n : ℕ} (hnew : ∀ id index, .free n id index ∉ S) :
    (op.run unknown ctx n).1.Ignores S := by
  cases op with
  | getGlobalPtr memspace offsetSize origSize =>
      rw [Op.run]
      have hcounter : ExecutionContext.Ignores S
          { ctx with globalPtr := ctx.globalPtr + 2 * offsetSize } :=
        ⟨hctx.arrays, hctx.initial, hctx.axioms⟩
      exact hcounter.writeBound (hnew _ _) (.const _) hopS.1 hopS.2
  | getLocalPtr memspace offsetSize origSize =>
      rw [Op.run]
      have hcounter : ExecutionContext.Ignores S
          { ctx with localPtr := ctx.localPtr + 2 * offsetSize } :=
        ⟨hctx.arrays, hctx.initial, hctx.axioms⟩
      exact hcounter.writeBound (hnew _ _) (.const _) hopS.1 hopS.2
  | getBound memspace =>
      rw [Op.run]
      exact (hctx.gepBounds (hnew _ _)).2
  | writeBound p bound memspace =>
      rw [Op.run]
      exact hctx.writeBound (hnew _ _) hopS.1 hopS.2.1 hopS.2.2
  | readExprFromMemory memspace =>
      rw [Op.run]
      exact hctx.touch (hnew _ _)
  | writeExprToMemory ix val memspace =>
      rw [Op.run]
      exact hctx.writeProperty (hnew _ _) hopS.1 hopS.2
  | writeExprRangeToMemory start size val memspace =>
      rw [Op.run]
      exact hctx.writeExprRangeToMemory (hnew _) hopS.1.1 hopS.1.2 hopS.2.1 hopS.2.2
  | readProperty id =>
      rw [Op.run]
      exact hctx.touch (hnew _ _)
  | writeProperty id ix val =>
      rw [Op.run]
      exact hctx.writeProperty (hnew _ _) hopS.1 hopS.2
  | externalizeEverythingMutable pfix => cases hop
  | switchOn branches => cases hop
  | externalSwitchOn branches pfix => cases hop

end SMT

end Borealis
