import Mathlib.Algebra.Order.Ring.Int
import Mathlib.Data.List.Basic
import Mathlib.Order.MinMax

/-!
# The indices of a raised array

`Reanimator::processArrayBounds` goes over the collected pointers: for each base pointer `b` with a
value and each pointer `q` derived from it, the index of `q` is recorded under the value of `b`.
The index should be `(q - b) / s` rounded down, for elements of size `s`; `/` of the source rounds
towards zero, and one is subtracted from every quotient of a negative difference.

`shift_eq_iff` says when a recorded index is the rounded quotient: the difference has 64 bits, and
it is not a negative multiple of the size, whose quotient needs no correction.
-/

namespace Borealis

namespace Reanimator

/-! ## Recording -/

/-- The values of `int64_t` arithmetic, which wraps around. -/
def wrap (x : ℤ) : ℤ := (x + 2 ^ 63) % 2 ^ 64 - 2 ^ 63

/-- An entry of the collected bounds: the size of what the base points to, its value in the model
and the values of the pointers derived from it. -/
structure Entry where
  elemTypeSize : BitVec 64
  base : Option (BitVec 64)
  bounds : List (Option (BitVec 64))

/-- `pElemTypeSize`, a `long long`. -/
def Entry.pElemTypeSize (e : Entry) : ℤ := e.elemTypeSize.toInt

def null_ptr : BitVec 64 := 0
def invalid_ptr : BitVec 64 := -1

/-- `shift`.  A division by zero traps, and so does one whose quotient has no 64 bits. -/
def shift (size : ℤ) (base bound : BitVec 64) : Option ℤ :=
  let delta := (bound - base).toInt
  if size = 0 ∨ size = -1 ∧ delta = -2 ^ 63 then none
  else if delta < 0 then some (wrap (delta.tdiv size - 1))
  else some (delta.tdiv size)

/-- `ArrayBoundsMap`: pairs of a base and an index. -/
abbrev ArrayBoundsMap := List (BitVec 64 × ℤ)

/-- The body of the inner loop. -/
def processBound (size : ℤ) (base : BitVec 64) (arrayBoundsMap : ArrayBoundsMap) :
    Option (BitVec 64) → Option ArrayBoundsMap
  | none => some arrayBoundsMap
  | some bound =>
    if null_ptr = bound then some arrayBoundsMap
    else if invalid_ptr = bound then some arrayBoundsMap
    else (shift size base bound).map fun index => arrayBoundsMap.insert (base, index)

/-- The body of the outer loop. -/
def processEntry (arrayBoundsMap : ArrayBoundsMap) (e : Entry) : Option ArrayBoundsMap :=
  match e.base with
  | none => some arrayBoundsMap
  | some base => e.bounds.foldlM (processBound e.pElemTypeSize base) arrayBoundsMap

/-- `Reanimator::processArrayBounds`. -/
def processArrayBounds (arrayBounds : List Entry) : Option ArrayBoundsMap :=
  arrayBounds.foldlM processEntry []

/-- `Reanimator::getArrayBounds`. -/
def getArrayBounds (arrayBoundsMap : ArrayBoundsMap) (base : BitVec 64) : List ℤ :=
  match (arrayBoundsMap.filter (·.1 = base)).map (·.2) with
  | [] => [0]
  | indices => indices

/-- `Reanimator::getArraySize`. -/
def getArraySize (arrayBoundsMap : ArrayBoundsMap) (base : BitVec 64) : ℤ :=
  wrap (1 + ((getArrayBounds arrayBoundsMap base).max?.getD 0))

/-! ## What is recorded -/

/-- A pointer `q` derived from a base `b` with elements of size `s`, and recorded. -/
def Collected (arrayBounds : List Entry) (s : ℤ) (b q : BitVec 64) : Prop :=
  ∃ e ∈ arrayBounds, e.pElemTypeSize = s ∧ e.base = some b ∧ some q ∈ e.bounds ∧
    q ≠ null_ptr ∧ q ≠ invalid_ptr

/-- A map holds what another one held and the indices of `derived`. -/
structure Records (derived : ℤ → BitVec 64 → BitVec 64 → Prop)
    (before after : ArrayBoundsMap) : Prop where
  defined : ∀ s b q, derived s b q → ∃ index, shift s b q = some index
  mem_iff : ∀ b index, (b, index) ∈ after ↔
    (b, index) ∈ before ∨ ∃ s q, derived s b q ∧ shift s b q = some index

/-- A loop records what its steps record, and runs through when each of them can. -/
theorem foldlM_records {α : Type} {step : ArrayBoundsMap → α → Option ArrayBoundsMap}
    {derived : α → ℤ → BitVec 64 → BitVec 64 → Prop}
    (hstep : ∀ before a after, step before a = some after → Records (derived a) before after)
    (hrun : ∀ before a, (∀ s b q, derived a s b q → ∃ index, shift s b q = some index) →
      ∃ after, step before a = some after)
    (l : List α) (before : ArrayBoundsMap) :
    (∀ after, l.foldlM step before = some after →
      Records (fun s b q => ∃ a ∈ l, derived a s b q) before after) ∧
    ((∀ a ∈ l, ∀ s b q, derived a s b q → ∃ index, shift s b q = some index) →
      ∃ after, l.foldlM step before = some after) := by
  induction l generalizing before with
  | nil =>
      refine ⟨fun after h => ?_, fun _ => ⟨before, rfl⟩⟩
      cases h
      exact ⟨by simp, by simp⟩
  | cons a l ih =>
      refine ⟨fun after h => ?_, fun h => ?_⟩
      · obtain ⟨middle, hmiddle, hafter⟩ := Option.bind_eq_some_iff.1 h
        have hhead := hstep _ _ _ hmiddle
        have htail := (ih middle).1 _ hafter
        refine ⟨fun s b q hq => ?_, fun b index => ?_⟩
        · obtain ⟨c, hc, hq⟩ := hq
          rcases List.mem_cons.1 hc with rfl | hc
          · exact hhead.defined _ _ _ hq
          · exact htail.defined _ _ _ ⟨c, hc, hq⟩
        · rw [htail.mem_iff, hhead.mem_iff, or_assoc]
          simp only [List.mem_cons, or_and_right, exists_or, exists_eq_left]
      · obtain ⟨middle, hmiddle⟩ := hrun before a (h a List.mem_cons_self)
        obtain ⟨after, hafter⟩ := (ih middle).2 fun c hc => h c (List.mem_cons_of_mem _ hc)
        exact ⟨after, Option.bind_eq_some_iff.2 ⟨middle, hmiddle, hafter⟩⟩

/-- What one step of the inner loop derives. -/
def derivedBound (size : ℤ) (base : BitVec 64) (bound : Option (BitVec 64)) (s : ℤ)
    (b q : BitVec 64) : Prop :=
  s = size ∧ b = base ∧ bound = some q ∧ q ≠ null_ptr ∧ q ≠ invalid_ptr

/-- A pointer from which nothing is derived leaves the map as it is. -/
theorem records_of_skip {size : ℤ} {base : BitVec 64} {before : ArrayBoundsMap}
    {bound : Option (BitVec 64)} (heq : processBound size base before bound = some before)
    (hnone : ∀ s b q, ¬ derivedBound size base bound s b q) :
    (∀ after, processBound size base before bound = some after →
      Records (derivedBound size base bound) before after) ∧
    ((∀ s b q, derivedBound size base bound s b q → ∃ index, shift s b q = some index) →
      ∃ after, processBound size base before bound = some after) := by
  refine ⟨fun after h => ?_, fun _ => ⟨before, heq⟩⟩
  obtain rfl := Option.some.inj (heq.symm.trans h)
  exact ⟨fun s b q hq => absurd hq (hnone s b q), fun b index => by simp [hnone]⟩

theorem processBound_records (size : ℤ) (base : BitVec 64) (before : ArrayBoundsMap)
    (bound : Option (BitVec 64)) :
    (∀ after, processBound size base before bound = some after →
      Records (derivedBound size base bound) before after) ∧
    ((∀ s b q, derivedBound size base bound s b q → ∃ index, shift s b q = some index) →
      ∃ after, processBound size base before bound = some after) := by
  cases bound with
  | none =>
      refine records_of_skip rfl fun s b q hq => ?_
      cases hq.2.2.1
  | some bound =>
      -- nothing is recorded for a null and for an invalid pointer either
      by_cases hnull : null_ptr = bound
      · apply records_of_skip
        · rw [processBound, if_pos hnull]
        · intro s b q hq
          exact hq.2.2.2.1 ((Option.some.inj hq.2.2.1).symm.trans hnull.symm)
      by_cases hinvalid : invalid_ptr = bound
      · apply records_of_skip
        · rw [processBound, if_neg hnull, if_pos hinvalid]
        · intro s b q hq
          exact hq.2.2.2.2 ((Option.some.inj hq.2.2.1).symm.trans hinvalid.symm)
      have heq : processBound size base before (some bound) =
          (shift size base bound).map fun index => before.insert (base, index) := by
        rw [processBound, if_neg hnull, if_neg hinvalid]
      have hderived : ∀ s b q, derivedBound size base (some bound) s b q ↔
          s = size ∧ b = base ∧ q = bound := by
        intro s b q
        refine ⟨fun h => ⟨h.1, h.2.1, (Option.some.inj h.2.2.1).symm⟩, ?_⟩
        rintro ⟨rfl, rfl, rfl⟩
        exact ⟨rfl, rfl, rfl, Ne.symm hnull, Ne.symm hinvalid⟩
      rw [heq]
      refine ⟨fun after h => ?_, fun h => ?_⟩
      · obtain ⟨index, hindex, rfl⟩ := Option.map_eq_some_iff.1 h
        refine ⟨fun s b q hq => ?_, fun b other => ?_⟩
        · obtain ⟨rfl, rfl, rfl⟩ := (hderived s b q).1 hq
          exact ⟨index, hindex⟩
        · rw [List.mem_insert_iff, or_comm, Prod.mk.injEq]
          refine or_congr Iff.rfl ⟨?_, ?_⟩
          · rintro ⟨rfl, rfl⟩
            exact ⟨size, bound, (hderived _ _ _).2 ⟨rfl, rfl, rfl⟩, hindex⟩
          · rintro ⟨s, q, hq, hother⟩
            obtain ⟨rfl, rfl, rfl⟩ := (hderived s b q).1 hq
            exact ⟨rfl, Option.some.inj (hother.symm.trans hindex)⟩
      · obtain ⟨index, hindex⟩ := h size base bound ((hderived _ _ _).2 ⟨rfl, rfl, rfl⟩)
        exact ⟨_, by rw [hindex]; rfl⟩

/-- What one step of the outer loop derives. -/
def derivedEntry (e : Entry) (s : ℤ) (b q : BitVec 64) : Prop :=
  e.pElemTypeSize = s ∧ e.base = some b ∧ some q ∈ e.bounds ∧ q ≠ null_ptr ∧ q ≠ invalid_ptr

theorem processEntry_records (before : ArrayBoundsMap) (e : Entry) :
    (∀ after, processEntry before e = some after → Records (derivedEntry e) before after) ∧
    ((∀ s b q, derivedEntry e s b q → ∃ index, shift s b q = some index) →
      ∃ after, processEntry before e = some after) := by
  cases hbase : e.base with
  | none =>
      have heq : processEntry before e = some before := by rw [processEntry, hbase]
      have hnone : ∀ s b q, ¬ derivedEntry e s b q := fun s b q hq => by
        cases hbase.symm.trans hq.2.1
      rw [heq]
      refine ⟨fun after h => ?_, fun _ => ⟨before, rfl⟩⟩
      cases h
      exact ⟨fun s b q hq => absurd hq (hnone s b q), fun b index => by simp [hnone]⟩
  | some base =>
      have heq : processEntry before e =
          e.bounds.foldlM (processBound e.pElemTypeSize base) before := by
        rw [processEntry, hbase]
      have hderived : ∀ s b q, derivedEntry e s b q ↔
          ∃ bound ∈ e.bounds, derivedBound e.pElemTypeSize base bound s b q := by
        intro s b q
        constructor
        · rintro ⟨hs, hb, hmem, hq⟩
          exact ⟨some q, hmem, hs.symm, (Option.some.inj (hbase.symm.trans hb)).symm, rfl, hq⟩
        · rintro ⟨bound, hmem, rfl, rfl, rfl, hq⟩
          exact ⟨rfl, hbase, hmem, hq⟩
      have hloop := foldlM_records
        (fun before bound => (processBound_records e.pElemTypeSize base before bound).1)
        (fun before bound => (processBound_records e.pElemTypeSize base before bound).2)
        e.bounds before
      rw [heq]
      refine ⟨fun after h => ?_, fun h => hloop.2 fun bound hmem s b q hq => ?_⟩
      · have hrecords := hloop.1 after h
        exact ⟨fun s b q hq => hrecords.defined s b q ((hderived s b q).1 hq),
          fun b index => by simp only [hrecords.mem_iff, hderived]⟩
      · exact h s b q ((hderived s b q).2 ⟨bound, hmem, hq⟩)

/-- **The map holds exactly the indices of the collected pointers**, and there is one if all of
them have an index. -/
theorem processArrayBounds_records (arrayBounds : List Entry) :
    (∀ map, processArrayBounds arrayBounds = some map →
      Records (Collected arrayBounds) [] map) ∧
    ((∀ s b q, Collected arrayBounds s b q → ∃ index, shift s b q = some index) →
      ∃ map, processArrayBounds arrayBounds = some map) := by
  have hloop := foldlM_records (fun before e => (processEntry_records before e).1)
    (fun before e => (processEntry_records before e).2) arrayBounds []
  exact ⟨hloop.1, fun h => hloop.2 fun e he s b q hq => h s b q ⟨e, he, hq⟩⟩

/-! ## Which index is recorded -/

/-- The two ways to read an address as a number: `int64_t` of a model's values and
`unsigned long long` of the keys of the map. -/
inductive Reading where
  | signed
  | unsigned

/-- The number an address stands for. -/
def Reading.value : Reading → BitVec 64 → ℤ
  | .signed, x => x.toInt
  | .unsigned, x => x.toNat

theorem toInt_sub_eq_wrap (reading : Reading) (q b : BitVec 64) :
    (q - b).toInt = wrap (reading.value q - reading.value b) := by
  have hq := q.isLt
  have hb := b.isLt
  rw [BitVec.toInt_sub]
  cases reading with
  | signed =>
      show (q.toInt - b.toInt).bmod (2 ^ 64) = wrap (q.toInt - b.toInt)
      rw [Int.bmod_def, wrap]
      omega
  | unsigned =>
      show (q.toInt - b.toInt).bmod (2 ^ 64) = wrap ((q.toNat : ℤ) - b.toNat)
      rw [BitVec.toInt_eq_toNat_cond, BitVec.toInt_eq_toNat_cond, Int.bmod_def, wrap]
      omega

theorem abs_value_sub_lt (reading : Reading) (q b : BitVec 64) :
    -2 ^ 64 < reading.value q - reading.value b ∧ reading.value q - reading.value b < 2 ^ 64 := by
  have hq := q.isLt
  have hb := b.isLt
  cases reading with
  | signed =>
      show -2 ^ 64 < q.toInt - b.toInt ∧ q.toInt - b.toInt < 2 ^ 64
      rw [BitVec.toInt_eq_toNat_cond, BitVec.toInt_eq_toNat_cond]
      omega
  | unsigned =>
      show -2 ^ 64 < (q.toNat : ℤ) - b.toNat ∧ (q.toNat : ℤ) - b.toNat < 2 ^ 64
      omega

/-- The difference of two pointers has 64 bits and is no negative multiple of the size. -/
def Exact (s d : ℤ) : Prop :=
  -2 ^ 63 ≤ d ∧ d < 2 ^ 63 ∧ ¬ (d < 0 ∧ s ∣ d)

theorem wrap_of_fits {x : ℤ} (hlo : -2 ^ 63 ≤ x) (hhi : x < 2 ^ 63) : wrap x = x := by
  rw [wrap]
  omega

/-- The quotient by a positive size is no larger than the dividend. -/
theorem le_ediv_of_neg {s d lo : ℤ} (hs : 0 < s) (hlo : lo ≤ d) (hneg : lo ≤ 0) : lo ≤ d / s := by
  apply (Int.le_ediv_iff_mul_le hs).2
  calc lo * s ≤ lo * 1 := Int.mul_le_mul_of_nonpos_left hneg (by omega)
    _ = lo := Int.mul_one lo
    _ ≤ d := hlo

/-- **The recorded index is the quotient rounded down exactly when the difference is exact.** -/
theorem shift_eq_iff (reading : Reading) {s : ℤ} (hs : 0 < s) (b q : BitVec 64) :
    shift s b q = some ((reading.value q - reading.value b) / s) ↔
      Exact s (reading.value q - reading.value b) := by
  have hdelta := toInt_sub_eq_wrap reading q b
  obtain ⟨hlo, hhi⟩ := abs_value_sub_lt reading q b
  generalize reading.value q - reading.value b = d at hdelta hlo hhi ⊢
  have hdefined : ¬ (s = 0 ∨ s = -1 ∧ (q - b).toInt = -2 ^ 63) := by omega
  rw [shift, if_neg hdefined, hdelta, Exact]
  by_cases hfits : -2 ^ 63 ≤ d ∧ d < 2 ^ 63
  · rw [wrap_of_fits hfits.1 hfits.2]
    by_cases hneg : d < 0
    · have hquotient := le_ediv_of_neg hs hfits.1 (by decide)
      have hquotient_neg : d / s < 0 := Int.ediv_neg_of_neg_of_pos hneg hs
      rw [if_pos hneg, Option.some_inj, Int.tdiv_eq_ediv]
      by_cases hdvd : s ∣ d
      · -- the quotient is exact, and one too many is subtracted
        rw [if_pos (Or.inr hdvd), wrap]
        constructor
        · omega
        · exact fun h => absurd ⟨hneg, hdvd⟩ h.2.2
      · rw [if_neg (by omega), Int.sign_eq_one_of_pos hs, wrap]
        constructor
        · exact fun _ => ⟨hfits.1, hfits.2, fun h => hdvd h.2⟩
        · omega
    · rw [if_neg hneg, Option.some_inj, Int.tdiv_eq_ediv_of_nonneg (by omega)]
      exact iff_of_true rfl ⟨hfits.1, hfits.2, fun h => hneg h.1⟩
  · -- the difference wraps around and has the other sign
    refine iff_of_false ?_ fun h => hfits ⟨h.1, h.2.1⟩
    rcases Int.lt_or_le d 0 with hneg | hpos
    · have hwrap : wrap d = d + 2 ^ 64 := by
        rw [wrap]
        omega
      have hquotient_neg : d / s < 0 := Int.ediv_neg_of_neg_of_pos hneg hs
      have hnonneg : 0 ≤ (wrap d).tdiv s := Int.tdiv_nonneg (by omega) (by omega)
      rw [if_neg (by omega), Option.some_inj]
      omega
    · have hwrap : wrap d = d - 2 ^ 64 := by
        rw [wrap]
        omega
      have hquotient : 0 ≤ d / s := Int.ediv_nonneg hpos (by omega)
      have hquotient_neg : wrap d / s < 0 := Int.ediv_neg_of_neg_of_pos (by omega) hs
      rw [if_pos (by omega), Option.some_inj, Int.tdiv_eq_ediv, Int.sign_eq_one_of_pos hs]
      by_cases hone : s = 1
      · -- the one size for which the subtraction may wrap around as well
        rw [if_pos (Or.inr (hone ▸ Int.one_dvd _)), hone, Int.ediv_one, Int.ediv_one, wrap]
        omega
      · have hlow : -2 ^ 62 ≤ wrap d / s := by
          apply (Int.le_ediv_iff_mul_le hs).2
          calc -2 ^ 62 * s ≤ -2 ^ 62 * 2 := Int.mul_le_mul_of_nonpos_left (by decide) (by omega)
            _ = -2 ^ 63 := by decide
            _ ≤ wrap d := by omega
        rw [wrap_of_fits] <;> split <;> omega

/-- An index is a `long long`. -/
theorem shift_fits {s : ℤ} {b q : BitVec 64} {index : ℤ} (h : shift s b q = some index) :
    -2 ^ 63 ≤ index ∧ index < 2 ^ 63 := by
  have hlo := BitVec.le_toInt (q - b)
  have hhi := BitVec.toInt_lt (x := q - b)
  have habs := Int.natAbs_tdiv_le_natAbs (q - b).toInt s
  rw [shift] at h
  split at h
  · cases h
  · split at h
    · cases h
      rw [wrap]
      omega
    · cases h
      omega

/-- An index by a negative size is not the largest number there is. -/
theorem shift_ne_max_of_neg {s : ℤ} (hs : s < 0) (b q : BitVec 64) :
    shift s b q ≠ some (2 ^ 63 - 1) := by
  have hlo := BitVec.le_toInt (q - b)
  have hhi := BitVec.toInt_lt (x := q - b)
  have habs : ((q - b).toInt.tdiv s).natAbs = (q - b).toInt.natAbs / s.natAbs :=
    Int.natAbs_tdiv _ _
  have hle := Nat.div_le_self (q - b).toInt.natAbs s.natAbs
  rw [shift]
  split
  · exact nofun
  · next htraps =>
    split
    · next hneg =>
      -- the quotient of two negative numbers has 63 bits unless the machine traps
      have hquotient : (q - b).toInt.tdiv s < 2 ^ 63 := by
        by_cases hone : s = -1
        · have hne : (q - b).toInt ≠ -2 ^ 63 := fun h => htraps (Or.inr ⟨hone, h⟩)
          omega
        · have hhalf : (q - b).toInt.natAbs / s.natAbs ≤ (q - b).toInt.natAbs / 2 :=
            Nat.div_le_div_left (by omega) (by decide)
          omega
      have hnonneg : 0 ≤ (q - b).toInt.tdiv s :=
        Int.tdiv_nonneg_of_nonpos_of_nonpos (by omega) (by omega)
      rw [wrap_of_fits (by omega) (by omega), Ne, Option.some_inj]
      omega
    · have hnonpos : (q - b).toInt.tdiv s ≤ 0 :=
        Int.tdiv_nonpos_of_nonneg_of_nonpos (by omega) (by omega)
      rw [Ne, Option.some_inj]
      omega

/-- A quotient by a positive size is the largest number only by the size one. -/
theorem ediv_eq_max_iff {s d : ℤ} (hs : 0 < s) (hhi : d < 2 ^ 63) :
    d / s = 2 ^ 63 - 1 ↔ s = 1 ∧ d = 2 ^ 63 - 1 := by
  constructor
  · intro h
    have hle : (2 ^ 63 - 1) * s ≤ d := (Int.le_ediv_iff_mul_le hs).1 (le_of_eq h.symm)
    omega
  · rintro ⟨rfl, rfl⟩
    exact Int.ediv_one _

/-! ## Array sizes -/

theorem getArrayBounds_ne_nil (map : ArrayBoundsMap) (b : BitVec 64) :
    getArrayBounds map b ≠ [] := by
  rw [getArrayBounds]
  split
  · exact List.cons_ne_nil _ _
  · next hne => exact hne

theorem mem_getArrayBounds {map : ArrayBoundsMap} {b : BitVec 64} {index : ℤ}
    (h : (b, index) ∈ map) : index ∈ getArrayBounds map b := by
  have hmem : index ∈ (map.filter (·.1 = b)).map (·.2) :=
    List.mem_map.2 ⟨(b, index), List.mem_filter.2 ⟨h, decide_eq_true rfl⟩, rfl⟩
  rw [getArrayBounds]
  split
  · next heq => exact absurd (heq ▸ hmem) List.not_mem_nil
  · exact hmem

theorem mem_of_mem_getArrayBounds {map : ArrayBoundsMap} {b : BitVec 64} {index : ℤ}
    (h : index ∈ getArrayBounds map b) : (b, index) ∈ map ∨ index = 0 := by
  rw [getArrayBounds] at h
  split at h
  · exact Or.inr (List.mem_singleton.1 h)
  · obtain ⟨pair, hpair, rfl⟩ := List.mem_map.1 h
    obtain ⟨hmem, hb⟩ := List.mem_filter.1 hpair
    exact Or.inl (of_decide_eq_true hb ▸ hmem)

/-- Indices are below the size, unless one of them is the largest number. -/
theorem lt_getArraySize_iff {map : ArrayBoundsMap} {b : BitVec 64}
    (hfits : ∀ index ∈ getArrayBounds map b, -2 ^ 63 ≤ index ∧ index < 2 ^ 63) :
    (∀ index ∈ getArrayBounds map b, index < getArraySize map b) ↔
      2 ^ 63 - 1 ∉ getArrayBounds map b := by
  obtain ⟨largest, hlargest⟩ := Option.isSome_iff_exists.1
    (List.isSome_max?_iff.2 (getArrayBounds_ne_nil map b))
  obtain ⟨hmem, hle⟩ := List.max?_eq_some_iff.1 hlargest
  have hrange := hfits largest hmem
  rw [getArraySize, hlargest, Option.getD_some]
  by_cases hmax : largest = 2 ^ 63 - 1
  · refine iff_of_false (fun h => ?_) fun h => h (hmax ▸ hmem)
    have hlt := h largest hmem
    rw [wrap] at hlt
    omega
  · rw [wrap_of_fits (by omega) (by omega)]
    refine iff_of_true (fun index hindex => ?_) fun h => ?_
    · have := hle index hindex
      omega
    · have := hle _ h
      omega

/-! ## Right indices -/

/-- **The right elements are shown.**  Each collected pointer has the quotient of its distance to
the base for its index, and the index is below the size of the array. -/
def ShowsRight (reading : Reading) (arrayBounds : List Entry) : Prop :=
  ∃ map, processArrayBounds arrayBounds = some map ∧
    ∀ s b q, Collected arrayBounds s b q → 0 < s →
      shift s b q = some ((reading.value q - reading.value b) / s) ∧
      (reading.value q - reading.value b) / s ∈ getArrayBounds map b ∧
      (reading.value q - reading.value b) / s < getArraySize map b

/-- No division traps, differences by a positive size are exact, and none is the largest number of
single elements. -/
def Divides (reading : Reading) (arrayBounds : List Entry) : Prop :=
  ∀ s b q, Collected arrayBounds s b q →
    s ≠ 0 ∧ ¬ (s = -1 ∧ q - b = BitVec.intMin 64) ∧
    (0 < s → Exact s (reading.value q - reading.value b) ∧
      ¬ (s = 1 ∧ reading.value q - reading.value b = 2 ^ 63 - 1))

theorem exists_shift_iff (s : ℤ) (b q : BitVec 64) :
    (∃ index, shift s b q = some index) ↔ s ≠ 0 ∧ ¬ (s = -1 ∧ q - b = BitVec.intMin 64) := by
  have hmin : (q - b).toInt = -2 ^ 63 ↔ q - b = BitVec.intMin 64 :=
    ⟨fun h => BitVec.eq_of_toInt_eq (h.trans (by decide)), fun h => h ▸ (by decide)⟩
  rw [shift, ← not_or, ← hmin]
  split
  · next h => exact iff_of_false nofun (not_not_intro h)
  · next h =>
    refine iff_of_true ?_ h
    split
    · exact ⟨_, rfl⟩
    · exact ⟨_, rfl⟩

/-- **Indices are right exactly when all divisions are.** -/
theorem showsRight_iff (reading : Reading) (arrayBounds : List Entry) :
    ShowsRight reading arrayBounds ↔ Divides reading arrayBounds := by
  obtain ⟨hrecords, hexists⟩ := processArrayBounds_records arrayBounds
  constructor
  · rintro ⟨map, hmap, hright⟩ s b q hq
    have hfold := hrecords map hmap
    obtain ⟨hzero, htrap⟩ := (exists_shift_iff s b q).1 (hfold.defined s b q hq)
    refine ⟨hzero, htrap, fun hs => ?_⟩
    obtain ⟨hshift, -, hlt⟩ := hright s b q hq hs
    have hexact := (shift_eq_iff reading hs b q).1 hshift
    refine ⟨hexact, fun hmax => ?_⟩
    have hle : getArraySize map b ≤ 2 ^ 63 - 1 := by
      rw [getArraySize, wrap]
      omega
    rw [(ediv_eq_max_iff hs hexact.2.1).2 hmax] at hlt
    omega
  · intro h
    obtain ⟨map, hmap⟩ := hexists fun s b q hq =>
      (exists_shift_iff s b q).2 ⟨(h s b q hq).1, (h s b q hq).2.1⟩
    have hfold := hrecords map hmap
    -- whatever stands under a base is zero or the index of a collected pointer
    have hstands : ∀ b, ∀ index ∈ getArrayBounds map b, index = 0 ∨
        ∃ s q, Collected arrayBounds s b q ∧ shift s b q = some index := by
      intro b index hindex
      rcases mem_of_mem_getArrayBounds hindex with hmem | hzero
      · exact Or.inr (((hfold.mem_iff b index).1 hmem).resolve_left List.not_mem_nil)
      · exact Or.inl hzero
    have hbelow : ∀ b, ∀ index ∈ getArrayBounds map b, index < getArraySize map b := by
      intro b
      refine (lt_getArraySize_iff fun index hindex => ?_).2 fun hmax => ?_
      · rcases hstands b index hindex with rfl | ⟨s, q, -, hshift⟩
        · decide
        · exact shift_fits hshift
      · rcases hstands b _ hmax with hzero | ⟨s, q, hq, hshift⟩
        · exact absurd hzero (by decide)
        · obtain ⟨hzero, -, hpos⟩ := h s b q hq
          rcases lt_or_gt_of_ne hzero with hs | hs
          · exact shift_ne_max_of_neg hs b q hshift
          · obtain ⟨hexact, hnot⟩ := hpos hs
            have hindex := (shift_eq_iff reading hs b q).2 hexact
            have heq := Option.some.inj (hindex.symm.trans hshift)
            exact hnot ((ediv_eq_max_iff hs hexact.2.1).1 heq)
    refine ⟨map, hmap, fun s b q hq hs => ?_⟩
    have hshift := (shift_eq_iff reading hs b q).2 ((h s b q hq).2.2 hs).1
    have hmem : (reading.value q - reading.value b) / s ∈ getArrayBounds map b :=
      mem_getArrayBounds ((hfold.mem_iff b _).2 (Or.inr ⟨s, q, hq, hshift⟩))
    exact ⟨hshift, hmem, hbelow b _ hmem⟩

end Reanimator

end Borealis
