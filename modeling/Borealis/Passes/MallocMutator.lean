import Borealis.Term.GepShift

/-!
# The sizes of modelled allocations

`MallocMutator` replaces each malloc-like call and each alloca by an intrinsic whose first argument
is the size of the memory in elements: a number of objects times the elements of one object.  The
number comes from `getMallocArraySize`, which answers nothing when the byte count is not a multiple
of the object's size; the pass then takes the byte count itself for the number of objects.

Sizes are products of 64-bit numbers.  `mulSize_eq_iff` says that such a product is right exactly if
the true product has 64 bits, although the elements of one object are already counted modulo
`2 ^ 64`; `malloc_sound_iff` and `alloca_sound_iff` put this together with where the number comes from.
-/

namespace Borealis

namespace MallocMutator

open GepTerm

/-! ## Types -/

mutual
/-- `llvm::Type`.  The type a pointer points to matters only by its name. -/
inductive LLVMType where
  | void
  | integer (bits : Nat)
  | floating
  | pointer (pointee : String)
  | array (element : LLVMType) (size : Nat)
  | vector (element : LLVMType) (size : Nat)
  | struct (name : String) (fields : LLVMTypes)
  | function (name : String)
  | metadata
  deriving DecidableEq

/-- The fields of a struct. -/
inductive LLVMTypes where
  | nil
  | cons (head : LLVMType) (tail : LLVMTypes)
  deriving DecidableEq
end

mutual
/-- `TypeFactory::cast`, as far as `TypeSizer` looks. -/
def LLVMType.cast : LLVMType → GepTerm.Layout
  | .array element size | .vector element size => .array element.cast (some size)
  | .struct _ fields => .record fields.cast
  | .void | .integer _ | .floating | .pointer _ | .function _ | .metadata => .elem

/-- The bodies of a struct's fields. -/
def LLVMTypes.cast : LLVMTypes → List GepTerm.Layout
  | .nil => []
  | .cons head tail => head.cast :: tail.cast
end

mutual
/-- The elements of an object, counted without a bound. -/
def elems : GepTerm.Layout → ℕ
  | .elem => 1
  | .array element size => elems element * size.getD 0
  | .record fields =>
    let res := elemsOfFields fields
    if res ≠ 0 then res else 1

/-- The elements of fields together. -/
def elemsOfFields : List GepTerm.Layout → ℕ
  | [] => 0
  | field :: fields => elems field + elemsOfFields fields
end

/-! ## The code -/

/-- A use of the allocated pointer: a bitcast to a pointer, or anything else. -/
inductive User where
  | bitcast (pointee : LLVMType)
  | other
  deriving DecidableEq

/-- A malloc-like call, which returns an `i8*`: its byte count, a constant of at most 64 bits, and
the users of its result. -/
structure MallocCall where
  bytes : ℕ
  bytes_lt : bytes < 2 ^ 64
  users : List User

/-- An array size: a constant, or a value that is known when the program runs. -/
inductive Count where
  | constant (value : ℕ)
  | computed (value : ℕ)

/-- The number an array size stands for. -/
def Count.value : Count → ℕ
  | .constant value | .computed value => value

/-- `i8`. -/
abbrev i8 : LLVMType := .integer 8

/-- `getMallocBitcastType`, without the pointer around it. -/
def getMallocBitcastType (users : List User) : Option LLVMType :=
  match users with
  | .bitcast pointee :: rest => if rest.all (· = .bitcast pointee) then some pointee else none
  | _ => none

/-- The element type that `runOnModule` hands to `mutateMemoryInst`. -/
def elemType (users : List User) : LLVMType := (getMallocBitcastType users).getD i8

/-- `getMallocArraySizeOrArg`. -/
def getMallocArraySizeOrArg (getMallocArraySize : MallocCall → Option ℕ) (CI : MallocCall) : ℕ :=
  (getMallocArraySize CI).getD CI.bytes

/-- The number of objects in `mutateMemoryInst`: `getLimitedValue` cuts a constant to 64 bits, and
without a constant there is `default-malloc-size`. -/
def resolvedArraySize (DefaultMallocSize : ℕ) : Count → ℕ
  | .constant value => min value (2 ^ 64 - 1)
  | .computed _ => DefaultMallocSize

/-- The first argument of the intrinsic, which `mutateMemoryInst` multiplies with 64 bits. -/
def resolvedMallocSize (DefaultMallocSize : ℕ) (elemType : LLVMType) (arraySize : Count) : ℕ :=
  resolvedArraySize DefaultMallocSize arraySize * elemType.cast.getTypeSizeInElems % 2 ^ 64

/-- A malloc-like call as `runOnModule` treats it. -/
def mallocSize (getMallocArraySize : MallocCall → Option ℕ) (DefaultMallocSize : ℕ)
    (CI : MallocCall) : ℕ :=
  resolvedMallocSize DefaultMallocSize (elemType CI.users)
    (.constant (getMallocArraySizeOrArg getMallocArraySize CI))

/-- The type that LLVM takes the memory to be of: that of the only bitcast, `i8` without one, and
none if there are several. -/
def getMallocAllocatedType (users : List User) : Option LLVMType :=
  match users.filter (· ≠ .other) with
  | [] => some i8
  | [.bitcast pointee] => some pointee
  | _ => none

/-- What is documented of LLVM: the array size of a constant byte count is the number of objects if
the type is known and the count is a multiple of its size, and none otherwise; an `i8` is a byte. -/
structure Documented (sizeOf : LLVMType → ℕ) (getMallocArraySize : MallocCall → Option ℕ) :
    Prop where
  sizeOf_i8 : sizeOf i8 = 1
  arraySize : ∀ CI, getMallocArraySize CI =
    match getMallocAllocatedType CI.users with
    | some T => if 0 < sizeOf T ∧ sizeOf T ∣ CI.bytes then some (CI.bytes / sizeOf T) else none
    | none => none

/-! ## Sizes -/

mutual
/-- `TypeSizer` is right about an object whose elements can be counted with 64 bits. -/
theorem getTypeSizeInElems_eq : ∀ L : GepTerm.Layout, elems L < 2 ^ 64 →
    L.getTypeSizeInElems = elems L
  | .elem, _ => by rw [GepTerm.Layout.getTypeSizeInElems, elems]
  | .array element size, h => by
      rw [elems] at h
      rw [GepTerm.Layout.getTypeSizeInElems, elems]
      rcases Nat.eq_zero_or_pos (size.getD 0) with hzero | hpos
      · simp [hzero]
      · have hle : elems element ≤ elems element * size.getD 0 := Nat.le_mul_of_pos_right _ hpos
        rw [getTypeSizeInElems_eq element (hle.trans_lt h), Nat.mod_eq_of_lt h]
  | .record fields, h => by
      have hfields : elemsOfFields fields < 2 ^ 64 := by
        rw [elems] at h
        split at h
        · exact h
        · omega
      rw [GepTerm.Layout.getTypeSizeInElems, elems, fieldSizes_eq fields hfields,
        Nat.mod_eq_of_lt hfields]

theorem fieldSizes_eq : ∀ fields : List GepTerm.Layout, elemsOfFields fields < 2 ^ 64 →
    fieldSizes fields = elemsOfFields fields
  | [], _ => by rw [fieldSizes, elemsOfFields]
  | field :: fields, h => by
      rw [elemsOfFields] at h
      rw [fieldSizes, elemsOfFields, getTypeSizeInElems_eq field (by omega),
        fieldSizes_eq fields (by omega)]
end

/-- **The size of a number of objects is right exactly if it has 64 bits.** -/
theorem mulSize_eq_iff (count : ℕ) (L : GepTerm.Layout) :
    count * L.getTypeSizeInElems % 2 ^ 64 = count * elems L ↔ count * elems L < 2 ^ 64 := by
  constructor
  · intro h
    rw [← h]
    exact Nat.mod_lt _ (by decide)
  · intro h
    rcases Nat.eq_zero_or_pos count with rfl | hpos
    · simp
    · -- the size of one object does not wrap around either
      have hle : elems L ≤ count * elems L := Nat.le_mul_of_pos_left _ hpos
      rw [getTypeSizeInElems_eq L (hle.trans_lt h), Nat.mod_eq_of_lt h]

/-- The intrinsic gets room for `count` objects, computed without wrap-around. -/
def Holds (size count : ℕ) (T : LLVMType) : Prop := size = count * elems T.cast

/-- What a malloc-like call must get: room for no more objects than fit into the bytes. -/
def MallocSound (sizeOf : LLVMType → ℕ) (getMallocArraySize : MallocCall → Option ℕ)
    (DefaultMallocSize : ℕ) (CI : MallocCall) : Prop :=
  let T := elemType CI.users
  let count := resolvedArraySize DefaultMallocSize
    (.constant (getMallocArraySizeOrArg getMallocArraySize CI))
  Holds (mallocSize getMallocArraySize DefaultMallocSize CI) count T ∧
    (0 < sizeOf T → count ≤ CI.bytes / sizeOf T)

/-- What an alloca must get: room for exactly the objects it asks for. -/
def AllocaSound (DefaultMallocSize : ℕ) (T : LLVMType) (arraySize : Count) : Prop :=
  Holds (resolvedMallocSize DefaultMallocSize T arraySize)
      (resolvedArraySize DefaultMallocSize arraySize) T ∧
    resolvedArraySize DefaultMallocSize arraySize * elems T.cast = arraySize.value * elems T.cast

theorem holds_iff (DefaultMallocSize : ℕ) (T : LLVMType) (arraySize : Count) :
    Holds (resolvedMallocSize DefaultMallocSize T arraySize)
        (resolvedArraySize DefaultMallocSize arraySize) T ↔
      resolvedArraySize DefaultMallocSize arraySize * elems T.cast < 2 ^ 64 :=
  mulSize_eq_iff _ _

/-! ## Malloc -/

section Malloc

variable {sizeOf : LLVMType → ℕ} {getMallocArraySize : MallocCall → Option ℕ}

/-- The only use of the result is a bitcast to `T`. -/
def CastOnce (T : LLVMType) (users : List User) : Prop := users = [.bitcast T]

/-- A constant byte count has 64 bits, and the array size is not larger. -/
theorem resolvedArraySize_malloc (h : Documented sizeOf getMallocArraySize) (D : ℕ)
    (CI : MallocCall) :
    resolvedArraySize D (.constant (getMallocArraySizeOrArg getMallocArraySize CI)) =
        getMallocArraySizeOrArg getMallocArraySize CI ∧
      getMallocArraySizeOrArg getMallocArraySize CI ≤ CI.bytes := by
  have hle : getMallocArraySizeOrArg getMallocArraySize CI ≤ CI.bytes := by
    rw [getMallocArraySizeOrArg, h.arraySize]
    split
    · split
      · exact Nat.div_le_self _ _
      · exact Nat.le_refl _
    · exact Nat.le_refl _
  have hlt := CI.bytes_lt
  exact ⟨Nat.min_eq_left (by omega), hle⟩

/-- Without a common bitcast type the memory is made of bytes, and it is never too large. -/
theorem malloc_sound_of_not_cast (h : Documented sizeOf getMallocArraySize) (D : ℕ)
    {CI : MallocCall} (hcast : getMallocBitcastType CI.users = none) :
    MallocSound sizeOf getMallocArraySize D CI := by
  obtain ⟨hcount, hle⟩ := resolvedArraySize_malloc h D CI
  have hT : elemType CI.users = i8 := by rw [elemType, hcast, Option.getD_none]
  have helems : elems i8.cast = 1 := by rw [LLVMType.cast, elems]
  refine ⟨(holds_iff _ _ _).mpr ?_, fun _ => ?_⟩
  · rw [hcount, hT, helems, Nat.mul_one]
    exact hle.trans_lt CI.bytes_lt
  · rw [hcount, hT, h.sizeOf_i8, Nat.div_one]
    exact hle

/-- The number of objects of a call whose users are bitcasts to one type. -/
theorem count_of_cast (h : Documented sizeOf getMallocArraySize) {CI : MallocCall} {T : LLVMType}
    (hcast : getMallocBitcastType CI.users = some T) :
    (CastOnce T CI.users ∧ 0 < sizeOf T ∧ sizeOf T ∣ CI.bytes →
        getMallocArraySizeOrArg getMallocArraySize CI = CI.bytes / sizeOf T) ∧
      (¬ (CastOnce T CI.users ∧ 0 < sizeOf T ∧ sizeOf T ∣ CI.bytes) →
        getMallocArraySizeOrArg getMallocArraySize CI = CI.bytes) := by
  have hdoc := h.arraySize CI
  obtain ⟨bytes, hbytes, users⟩ := CI
  simp only at hcast hdoc ⊢
  match users with
  | [] => cases hcast
  | .other :: _ => cases hcast
  | .bitcast pointee :: rest =>
      have hrest : rest.all (· = .bitcast pointee) = true ∧ pointee = T := by
        rw [getMallocBitcastType] at hcast
        split at hcast
        case isTrue hall => exact ⟨hall, Option.some.inj hcast⟩
        case isFalse => cases hcast
      obtain ⟨hall, rfl⟩ := hrest
      cases rest with
      | nil =>
          have htype : getMallocAllocatedType [.bitcast pointee] = some pointee := by
            simp [getMallocAllocatedType]
          rw [htype] at hdoc
          simp only at hdoc
          refine ⟨fun hc => ?_, fun hc => ?_⟩
          · rw [getMallocArraySizeOrArg, hdoc, if_pos hc.2, Option.getD_some]
          · rw [getMallocArraySizeOrArg, hdoc, if_neg fun hdiv => hc ⟨rfl, hdiv⟩, Option.getD_none]
      | cons second rest =>
          have hsecond : second = .bitcast pointee := by
            simpa using (List.all_eq_true.mp hall) second List.mem_cons_self
          -- a second bitcast leaves LLVM without a type
          have htype : getMallocAllocatedType (.bitcast pointee :: second :: rest) = none := by
            simp [getMallocAllocatedType, hsecond]
          rw [htype] at hdoc
          refine ⟨fun hc => ?_, fun _ => ?_⟩
          · exact absurd (List.cons.inj hc.1).2 (List.cons_ne_nil _ _)
          · rw [getMallocArraySizeOrArg, hdoc, Option.getD_none]

/-- **A malloc is sound exactly if it has no common bitcast type, or its only use is a bitcast to a
type whose size divides the bytes, or the type has at most one byte; and the size has 64 bits.** -/
theorem malloc_sound_iff (h : Documented sizeOf getMallocArraySize) (D : ℕ) (CI : MallocCall) :
    MallocSound sizeOf getMallocArraySize D CI ↔
      ∀ T, getMallocBitcastType CI.users = some T →
        (CastOnce T CI.users ∧ 0 < sizeOf T ∧ sizeOf T ∣ CI.bytes ∧
          CI.bytes / sizeOf T * elems T.cast < 2 ^ 64) ∨
        ((sizeOf T ≤ 1 ∨ CI.bytes = 0) ∧ CI.bytes * elems T.cast < 2 ^ 64) := by
  cases hcast : getMallocBitcastType CI.users with
  | none =>
      refine ⟨fun _ T hT => (by cases hT), fun _ => malloc_sound_of_not_cast h D hcast⟩
  | some T =>
      have hforall : ∀ P : LLVMType → Prop, (∀ T', some T = some T' → P T') ↔ P T := by simp
      rw [hforall]
      obtain ⟨hdivides, hbytes⟩ := count_of_cast h hcast
      have hT : elemType CI.users = T := by rw [elemType, hcast, Option.getD_some]
      have hsound : MallocSound sizeOf getMallocArraySize D CI ↔
          getMallocArraySizeOrArg getMallocArraySize CI * elems T.cast < 2 ^ 64 ∧
            (0 < sizeOf T →
              getMallocArraySizeOrArg getMallocArraySize CI ≤ CI.bytes / sizeOf T) := by
        rw [← (resolvedArraySize_malloc h D CI).1, ← holds_iff, ← hT]
        rfl
      rw [hsound]
      by_cases hdiv : CastOnce T CI.users ∧ 0 < sizeOf T ∧ sizeOf T ∣ CI.bytes
      · rw [hdivides hdiv]
        refine ⟨fun hs => Or.inl ⟨hdiv.1, hdiv.2.1, hdiv.2.2, hs.1⟩,
          fun hs => ⟨?_, fun _ => le_rfl⟩⟩
        rcases hs with ⟨-, -, -, hfits⟩ | ⟨hone | hzero, hfits⟩
        · exact hfits
        · rwa [le_antisymm hone hdiv.2.1, Nat.div_one]
        · simp [hzero]
      · rw [hbytes hdiv]
        refine ⟨fun hs => Or.inr ⟨?_, hs.1⟩, fun hs => ?_⟩
        · -- a larger object fits fewer times than there are bytes
          by_contra hcon
          push Not at hcon
          have hlt := Nat.div_lt_self (Nat.pos_of_ne_zero hcon.2) hcon.1
          exact absurd (hs.2 (Nat.lt_of_succ_lt hcon.1)) (Nat.not_le.mpr hlt)
        · rcases hs with ⟨honce, hpos, hdvd, -⟩ | ⟨hsmall, hfits⟩
          · exact absurd ⟨honce, hpos, hdvd⟩ hdiv
          · refine ⟨hfits, fun hpos => ?_⟩
            rcases hsmall with hone | hzero
            · rw [le_antisymm hone hpos, Nat.div_one]
            · rw [hzero]
              exact Nat.zero_le _

end Malloc

/-! ## Alloca -/

/-- **An alloca is sound exactly if its size has 64 bits and, where its count is computed, the
default is that count or the objects have no elements.** -/
theorem alloca_sound_iff (D : ℕ) (T : LLVMType) (arraySize : Count) :
    AllocaSound D T arraySize ↔
      match arraySize with
      | .constant k => k * elems T.cast < 2 ^ 64
      | .computed k => D * elems T.cast < 2 ^ 64 ∧ (D = k ∨ elems T.cast = 0) := by
  rw [AllocaSound, holds_iff]
  cases arraySize with
  | constant k =>
      simp only [resolvedArraySize, Count.value]
      rcases Nat.eq_zero_or_pos (elems T.cast) with hzero | hpos
      · simp [hzero]
      · constructor
        · rintro ⟨hfits, heq⟩
          rwa [← heq]
        · intro hfits
          have hk : k < 2 ^ 64 := (Nat.le_mul_of_pos_right k hpos).trans_lt hfits
          rw [Nat.min_eq_left (by omega)]
          exact ⟨hfits, rfl⟩
  | computed k =>
      simp only [resolvedArraySize, Count.value]
      exact and_congr_right fun _ => mul_eq_mul_right_iff

/-- **When the modelled sizes do not exceed the real ones.** -/
theorem sizes_sound_iff {sizeOf : LLVMType → ℕ} {getMallocArraySize : MallocCall → Option ℕ}
    (h : Documented sizeOf getMallocArraySize) (DefaultMallocSize : ℕ) :
    (∀ CI, MallocSound sizeOf getMallocArraySize DefaultMallocSize CI ↔
      ∀ T, getMallocBitcastType CI.users = some T →
        (CastOnce T CI.users ∧ 0 < sizeOf T ∧ sizeOf T ∣ CI.bytes ∧
          CI.bytes / sizeOf T * elems T.cast < 2 ^ 64) ∨
        ((sizeOf T ≤ 1 ∨ CI.bytes = 0) ∧ CI.bytes * elems T.cast < 2 ^ 64)) ∧
    ∀ T arraySize, AllocaSound DefaultMallocSize T arraySize ↔
      match arraySize with
      | .constant k => k * elems T.cast < 2 ^ 64
      | .computed k => DefaultMallocSize * elems T.cast < 2 ^ 64 ∧
          (DefaultMallocSize = k ∨ elems T.cast = 0) :=
  ⟨malloc_sound_iff h DefaultMallocSize, alloca_sound_iff DefaultMallocSize⟩

/-- Sizes in bytes of the integers and pointers of a 64-bit machine. -/
def sizeOf64 : LLVMType → ℕ
  | .integer bits => (bits + 7) / 8
  | .pointer _ | .floating => 8
  | .array element size | .vector element size => sizeOf64 element * size
  | _ => 0

/-- `getMallocArraySize` as it is documented. -/
def arraySize64 (CI : MallocCall) : Option ℕ :=
  match getMallocAllocatedType CI.users with
  | some T => if 0 < sizeOf64 T ∧ sizeOf64 T ∣ CI.bytes then some (CI.bytes / sizeOf64 T) else none
  | none => none

theorem documented64 : Documented sizeOf64 arraySize64 := ⟨rfl, fun _ => rfl⟩

/-- Twelve bytes for an `i32*` are room for three objects. -/
theorem sizes_sound_iff_twelve :
    MallocSound sizeOf64 arraySize64 2048 ⟨12, by decide, [.bitcast (.integer 32)]⟩ ∧
      AllocaSound 2048 (.integer 32) (.constant 3) := by
  have h := sizes_sound_iff documented64 2048
  refine ⟨(h.1 _).mpr fun T hT => ?_, (h.2 _ _).mpr (by decide)⟩
  obtain rfl : .integer 32 = T := Option.some.inj hT
  exact Or.inl ⟨rfl, by decide, by decide, by decide⟩

/-- Ten bytes for an `i32*` become room for ten objects. -/
theorem not_sound_ten :
    ¬ ∀ CI, MallocSound sizeOf64 arraySize64 2048 CI := by
  intro h
  have hbound := (h ⟨10, by decide, [.bitcast (.integer 32)]⟩).2 (by decide)
  exact absurd hbound (by decide)

end MallocMutator

end Borealis
