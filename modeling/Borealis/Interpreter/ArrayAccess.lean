import Borealis.Interpreter.Interval
import Mathlib.Data.List.AList
import Mathlib.Order.BoundedOrder.Lattice

/-!
# Array accesses

`load` and `store` of `Interpreter/Domain/Memory/ArrayDomain.hpp`.  An array has a length, which is
an interval of machine integers, and the elements that were stored so far; an element that was not
is bottom.  An access takes an interval of indices and goes through all indices that lie in it and
below the length, as machine bounds that `unsignedBounds` makes of the two intervals.

`unsignedBounds` converts the lower end of an interval where it should convert the upper one: a
finite upper end becomes the lower end.

## Strategy

The loop runs while an index is below `limit`, the smaller one of its two ends, and `forIndices_eq`
says that it is then a fold over a range of natural numbers.  When there is no such index it never
ends (`forIndices_none`), because the index of the source wraps around.  What a store leaves in a
cell follows by induction over the range (`foldl_cell`).
-/

namespace Borealis

namespace ArrayAccess

/-- `size_t`. -/
abbrev Index := BitInt false 64

/-- The position of an index. -/
def Index.pos (x : Index) : Nat := x.inner.toNat

/-- `AbstractFactory::unsignedBounds` of a machine integer interval. -/
def unsignedBounds (domain : Interval.Ptr false 64) : Bound false 64 × Bound false 64 :=
  let lb := domain.lb
  let ub := domain.ub
  let first := if lb.isFinite then .finite lb.number else .ofInt 0
  let second := if ub.isFinite then .finite lb.number else .plusInfinity
  (first, second)

/-- `ArrayDomain`: `length_` and `elements_`. -/
structure ArrayDomain (D : Type) where
  length : Interval.Ptr false 64
  elements : AList fun _ : Index => D

/-- The loop `for (i = lb; i <= ub and i < length; ++i)`, cut off after `fuel` tests. -/
def forIndices {σ : Type} (body : Index → σ → σ) (ub length : Bound false 64) :
    Nat → Bound false 64 → σ → Option σ
  | 0, _, _ => none
  | fuel + 1, i, s =>
    if i.leq ub && i.lt length then
      forIndices body ub length fuel (i + .ofInt 1) (body i.number s)
    else some s

namespace ArrayDomain

variable {D : Type} [SemilatticeSup D] [BoundedOrder D]

omit [SemilatticeSup D] [BoundedOrder D] in
/-- `isTop`. -/
def isTop (a : ArrayDomain D) : Bool :=
  a.length.isTop && a.elements.entries.isEmpty

omit [SemilatticeSup D] [BoundedOrder D] in
/-- `isBottom`. -/
def isBottom (a : ArrayDomain D) : Bool :=
  a.length.isBottom && a.elements.entries.isEmpty

/-- The body of the loop of `load`. -/
def join (a : ArrayDomain D) (i : Index) (result : D) : D :=
  result ⊔ (a.elements.lookup i).getD ⊥

/-- The body of the loop of `store`. -/
def put (value : D) (i : Index) (elements : AList fun _ : Index => D) :
    AList fun _ : Index => D :=
  elements.insert i (match elements.lookup i with
    | none => value
    | some old => old ⊔ value)

/-- `load`; `none` when the loop has not ended after `fuel` tests. -/
def load (fuel : Nat) (a : ArrayDomain D) (interval : Interval.Ptr false 64) : Option D :=
  let (lb, ub) := unsignedBounds interval
  if a.isTop then some ⊤
  else if a.isBottom then some ⊥
  else
    let length := (unsignedBounds a.length).2
    if lb.geq length then some ⊤
    else forIndices a.join ub length fuel lb ⊥

/-- `store`; `none` when the loop has not ended after `fuel` tests. -/
def store (fuel : Nat) (a : ArrayDomain D) (value : D) (interval : Interval.Ptr false 64) :
    Option (ArrayDomain D) :=
  let (lb, ub) := unsignedBounds interval
  if a.isTop then some a
  else if a.isBottom then some a
  else
    let length := (unsignedBounds a.length).2
    (forIndices (put value) ub length fuel lb a.elements).map fun elements => { a with elements }

/-- The abstract value of an element. -/
def valueAt (a : ArrayDomain D) (i : Index) : D :=
  if a.isTop then ⊤ else (a.elements.lookup i).getD ⊥

end ArrayDomain

/-! ## The loop -/

/-- The first index at which the loop stops, if there is one. -/
def limit : Bound false 64 → Bound false 64 → Option Nat
  | .minusInfinity, _ => some 0
  | _, .minusInfinity => some 0
  | .finite u, .finite n => some (min (Index.pos u + 1) (Index.pos n))
  | .finite u, .plusInfinity => some (Index.pos u + 1)
  | .plusInfinity, .finite n => some (Index.pos n)
  | .plusInfinity, .plusInfinity => none

theorem leq_iff {x y : Index} : x.leq y = true ↔ Index.pos x ≤ Index.pos y := by
  rw [BitInt.leq_iff]
  simp [BitInt.toInt, Index.pos]

/-- The test of the loop. -/
theorem continues_iff (ub length : Bound false 64) (i : Index) :
    ((Bound.finite i).leq ub && (Bound.finite i).lt length) = true ↔
      ∀ m, limit ub length = some m → Index.pos i < m := by
  have hlt : ∀ n : Index, (!i.geq n) = true ↔ Index.pos i < Index.pos n := by
    intro n
    rw [Bool.not_eq_true', ← Bool.not_eq_true, BitInt.geq, leq_iff, Nat.not_le]
  cases ub <;> cases length <;>
    simp [Bound.leq, Bound.lt, Bound.geq, limit, leq_iff, hlt]

/-- The index at a position. -/
def indexAt (k : Nat) : Index := ⟨BitVec.ofNat 64 k⟩

theorem pos_lt (x : Index) : Index.pos x < 2 ^ 64 := x.inner.isLt

theorem pos_indexAt {k : Nat} (hk : k < 2 ^ 64) : Index.pos (indexAt k) = k := by
  rw [Index.pos, indexAt, BitVec.toNat_ofNat, Nat.mod_eq_of_lt hk]

theorem indexAt_pos (x : Index) : indexAt (Index.pos x) = x := by
  rw [indexAt, Index.pos, BitVec.ofNat_toNat, BitVec.setWidth_eq]

theorem indexAt_succ (k : Nat) :
    Bound.finite (indexAt k) + Bound.ofInt 1 = .finite (indexAt (k + 1)) := by
  have hone : (BitInt.ofInt 1 : Index) = ⟨1⟩ := rfl
  rw [Bound.ofInt, Bound.finite_add_finite, hone]
  refine congrArg Bound.finite (congrArg BitInt.mk ?_)
  exact (BitVec.ofNat_add k 1).symm

/-- **The loop is a fold** over the positions up to its limit. -/
theorem forIndices_eq {σ : Type} (body : Index → σ → σ) {ub length : Bound false 64} {m : Nat}
    (hlimit : limit ub length = some m) (hm : m < 2 ^ 64) {n : Nat} (hn : n < 2 ^ 64) (s : σ) :
    forIndices body ub length (m - n + 1) (.finite (indexAt n)) s =
      some ((List.range' n (m - n)).foldl (fun s k => body (indexAt k) s) s) := by
  induction hd : m - n generalizing n s with
  | zero =>
      have hstop : ((Bound.finite (indexAt n)).leq ub &&
          (Bound.finite (indexAt n)).lt length) = false := by
        rw [Bool.eq_false_iff]
        intro hcontinues
        have := (continues_iff ub length _).mp hcontinues m hlimit
        rw [pos_indexAt hn] at this
        omega
      rw [forIndices, hstop]
      rfl
  | succ d ih =>
      have hgo : ((Bound.finite (indexAt n)).leq ub &&
          (Bound.finite (indexAt n)).lt length) = true := by
        refine (continues_iff ub length _).mpr fun m' hm' => ?_
        rw [hlimit, Option.some.injEq] at hm'
        rw [pos_indexAt hn]
        omega
      rw [forIndices, if_pos hgo, indexAt_succ, ih (by omega) _ (by omega), List.range'_succ,
        List.foldl_cons, Bound.number]

/-- **Without a limit the loop does not end**: after the greatest index it goes on with zero. -/
theorem forIndices_none {σ : Type} (body : Index → σ → σ) {ub length : Bound false 64}
    (hlimit : ∀ m, limit ub length = some m → 2 ^ 64 ≤ m) (fuel : Nat) (i : Index) (s : σ) :
    forIndices body ub length fuel (.finite i) s = none := by
  induction fuel generalizing i s with
  | zero => rfl
  | succ fuel ih =>
      have hgo : ((Bound.finite i).leq ub && (Bound.finite i).lt length) = true :=
        (continues_iff ub length i).mpr fun m hm => (pos_lt i).trans_le (hlimit m hm)
      rw [forIndices, if_pos hgo]
      exact ih _ _

/-- The number of tests allowed does not change the answer. -/
theorem forIndices_unique {σ : Type} {body : Index → σ → σ} {ub length : Bound false 64}
    {fuel fuel' : Nat} {i : Bound false 64} {s r r' : σ}
    (hr : forIndices body ub length fuel i s = some r)
    (hr' : forIndices body ub length fuel' i s = some r') : r = r' := by
  induction fuel generalizing fuel' i s with
  | zero => exact absurd hr.symm (Option.some_ne_none _)
  | succ fuel ih =>
      cases fuel' with
      | zero => exact absurd hr'.symm (Option.some_ne_none _)
      | succ fuel' =>
          rw [forIndices] at hr hr'
          split at hr
          · next hgo =>
              rw [if_pos hgo] at hr'
              exact ih hr hr'
          · next hstop =>
              rw [if_neg hstop] at hr'
              exact Option.some.inj (hr.symm.trans hr')

/-- More tests do not change an answer. -/
theorem forIndices_mono {σ : Type} {body : Index → σ → σ} {ub length : Bound false 64}
    {fuel fuel' : Nat} (hfuel : fuel ≤ fuel') {i : Bound false 64} {s r : σ}
    (hr : forIndices body ub length fuel i s = some r) :
    forIndices body ub length fuel' i s = some r := by
  induction fuel generalizing fuel' i s with
  | zero => exact absurd hr.symm (Option.some_ne_none _)
  | succ fuel ih =>
      obtain ⟨fuel', rfl⟩ := Nat.exists_eq_succ_of_ne_zero (by omega : fuel' ≠ 0)
      rw [forIndices] at hr ⊢
      split at hr
      · next hgo =>
          rw [if_pos hgo]
          exact ih (by omega) hr
      · next hstop =>
          rw [if_neg hstop]
          exact hr

section Fold

variable {D : Type} [SemilatticeSup D] [BoundedOrder D]

/-- The result of the loop of `load` is above every element it visits. -/
theorem le_foldl_join (a : ArrayDomain D) (l : List Nat) (result : D) :
    result ≤ l.foldl (fun s k => a.join (indexAt k) s) result ∧
      ∀ k ∈ l, (a.elements.lookup (indexAt k)).getD ⊥ ≤
        l.foldl (fun s k => a.join (indexAt k) s) result := by
  induction l generalizing result with
  | nil => exact ⟨le_rfl, fun k hk => absurd hk List.not_mem_nil⟩
  | cons k l ih =>
      obtain ⟨hacc, hall⟩ := ih (a.join (indexAt k) result)
      rw [List.foldl_cons]
      refine ⟨le_sup_left.trans hacc, fun j hj => ?_⟩
      rcases List.mem_cons.mp hj with rfl | hj
      · exact le_sup_right.trans hacc
      · exact hall j hj

omit [BoundedOrder D] in
theorem lookup_put (value : D) (i x : Index) (elements : AList fun _ : Index => D) :
    (ArrayDomain.put value i elements).lookup x =
      if x = i then some (match elements.lookup i with
        | none => value
        | some old => old ⊔ value)
      else elements.lookup x := by
  unfold ArrayDomain.put
  by_cases hx : x = i
  · rw [if_pos hx, hx, AList.lookup_insert]
  · rw [if_neg hx, AList.lookup_insert_ne hx]

/-- A visit raises a cell, and the visited one above the stored value. -/
theorem cell_put (value : D) (i x : Index) (elements : AList fun _ : Index => D) :
    (elements.lookup x).getD ⊥ ≤ ((ArrayDomain.put value i elements).lookup x).getD ⊥ ∧
      (x = i → value ≤ ((ArrayDomain.put value i elements).lookup x).getD ⊥) := by
  rw [lookup_put]
  by_cases hx : x = i
  · subst hx
    rw [if_pos rfl]
    cases elements.lookup x with
    | none => exact ⟨bot_le, fun _ => le_rfl⟩
    | some old => exact ⟨le_sup_left, fun _ => le_sup_right⟩
  · rw [if_neg hx]
    exact ⟨le_rfl, fun h => absurd h hx⟩

/-- **What the loop of `store` leaves in a cell**: no less than before, no less than the stored
value when the cell is visited, and the same as before when it is not. -/
theorem foldl_cell (value : D) (x : Index) (l : List Nat)
    (elements : AList fun _ : Index => D) :
    ((elements.lookup x).getD ⊥ ≤
        ((l.foldl (fun s k => ArrayDomain.put value (indexAt k) s) elements).lookup x).getD ⊥) ∧
      (x ∈ l.map indexAt → value ≤
        ((l.foldl (fun s k => ArrayDomain.put value (indexAt k) s) elements).lookup x).getD ⊥) ∧
      (x ∉ l.map indexAt →
        (l.foldl (fun s k => ArrayDomain.put value (indexAt k) s) elements).lookup x =
          elements.lookup x) := by
  induction l generalizing elements with
  | nil => exact ⟨le_rfl, fun h => absurd h List.not_mem_nil, fun _ => rfl⟩
  | cons k l ih =>
      obtain ⟨hmono, hmem, hkeep⟩ := ih (ArrayDomain.put value (indexAt k) elements)
      obtain ⟨hold, hvalue⟩ := cell_put value (indexAt k) x elements
      rw [List.foldl_cons, List.map_cons]
      refine ⟨hold.trans hmono, fun hx => ?_, fun hx => ?_⟩
      · rcases List.mem_cons.mp hx with hx | hx
        · exact (hvalue hx).trans hmono
        · exact hmem hx
      · obtain ⟨hne, hx⟩ := not_or.mp (fun h => hx (List.mem_cons.mpr h))
        rw [hkeep hx, lookup_put, if_neg hne]

end Fold

/-! ## The bounds of an access -/

/-- The lower end of an interval, zero when it is infinite. -/
def lowerEnd (a : Interval.Ptr false 64) : Nat :=
  if a.lb.isFinite then Index.pos a.lb.number else 0

theorem unsignedBounds_eq (a : Interval.Ptr false 64) :
    unsignedBounds a = (.finite (indexAt (lowerEnd a)),
      if a.ub.isFinite then .finite (indexAt (lowerEnd a)) else .plusInfinity) := by
  have hzero : (BitInt.ofInt 0 : Index) = indexAt 0 := rfl
  unfold unsignedBounds lowerEnd
  cases a.lb <;> cases a.ub <;>
    simp [Bound.isFinite, Bound.number, Bound.ofInt, hzero, indexAt_pos]

theorem lowerEnd_lt (a : Interval.Ptr false 64) : lowerEnd a < 2 ^ 64 := by
  unfold lowerEnd
  split
  · exact pos_lt _
  · decide

theorem lowerEnd_le {a : Interval.Ptr false 64} {x : Index} (hx : x ∈ a) :
    lowerEnd a ≤ Index.pos x := by
  have hcontains : a.lb.leq (.finite x) = true := by
    have h := hx.2
    rw [Interval.contains, Bool.and_eq_true] at h
    exact h.1
  unfold lowerEnd
  cases hlb : a.lb with
  | finite n =>
      rw [hlb, Bound.leq, leq_iff] at hcontains
      exact hcontains
  | plusInfinity => exact Nat.zero_le _
  | minusInfinity => exact Nat.zero_le _

/-- The limit of the loop of an access. -/
def accessLimit (length offset : Interval.Ptr false 64) : Option Nat :=
  limit (unsignedBounds offset).2 (unsignedBounds length).2

/-- The loop of an access has a limit that an index can reach. -/
def Terminates (length offset : Interval.Ptr false 64) : Prop :=
  length.ub.isFinite = true ∨ (offset.ub.isFinite = true ∧ lowerEnd offset + 1 < 2 ^ 64)

theorem accessLimit_spec {length offset : Interval.Ptr false 64} {m : Nat}
    (hm : accessLimit length offset = some m) (k : Nat) :
    k < m ↔ (offset.ub.isFinite = true → k ≤ lowerEnd offset) ∧
      (length.ub.isFinite = true → k < lowerEnd length) := by
  rw [accessLimit, unsignedBounds_eq, unsignedBounds_eq] at hm
  have hoffset := pos_indexAt (lowerEnd_lt offset)
  have hlength := pos_indexAt (lowerEnd_lt length)
  cases ho : offset.ub.isFinite <;> cases hl : length.ub.isFinite <;>
    simp only [ho, hl, if_true, Bool.false_eq_true, if_false, limit, Option.some.injEq,
      hoffset, hlength, reduceCtorEq] at hm <;>
    simp <;> omega

theorem terminates_iff (length offset : Interval.Ptr false 64) :
    Terminates length offset ↔ ∃ m, accessLimit length offset = some m ∧ m < 2 ^ 64 := by
  have hoffset := pos_indexAt (lowerEnd_lt offset)
  have hlength := pos_indexAt (lowerEnd_lt length)
  have hlt := lowerEnd_lt length
  rw [Terminates, accessLimit, unsignedBounds_eq, unsignedBounds_eq]
  cases ho : offset.ub.isFinite <;> cases hl : length.ub.isFinite <;>
    simp [limit, hoffset, hlength] <;> omega

/-! ## Sound accesses -/

/-- The elements an access may concern: the index lies in the interval and below a possible
length. -/
def Touched (length offset : Interval.Ptr false 64) (x : Index) : Prop :=
  x ∈ offset ∧ ∃ n ∈ length, Index.pos x < Index.pos n

/-- Loads and stores of an array of this length end; a load returns no less than any element it may
concern; a store leaves such an element no less than the stored value, and no element less than it
was, except for one at an exact index. -/
structure AccessSound (D : Type) [SemilatticeSup D] [BoundedOrder D]
    (length offset : Interval.Ptr false 64) : Prop where
  load : ∀ elements : AList fun _ : Index => D, ∃ fuel result,
    ArrayDomain.load fuel ⟨length, elements⟩ offset = some result ∧
      ∀ x, Touched length offset x → ArrayDomain.valueAt ⟨length, elements⟩ x ≤ result
  store : ∀ (elements : AList fun _ : Index => D) (value : D), ∃ fuel a,
    ArrayDomain.store fuel ⟨length, elements⟩ value offset = some a ∧
      ∀ x, (Touched length offset x → value ≤ a.valueAt x) ∧
        (¬ (Touched length offset x ∧ offset.isConstant = true) →
          ArrayDomain.valueAt ⟨length, elements⟩ x ≤ a.valueAt x)

/-- The two ends that the conversion loses do not matter: behind a finite upper end of the offset
there is only the first index, and below a finite upper end of the length there is nothing from the
lower end on. -/
def Covered (length offset : Interval.Ptr false 64) : Prop :=
  ∀ x, Touched length offset x →
    (offset.ub.isFinite = true → Index.pos x = lowerEnd offset) ∧
      (length.ub.isFinite = true → Index.pos x < lowerEnd length)

section Access

variable {D : Type} [SemilatticeSup D] [BoundedOrder D] {length offset : Interval.Ptr false 64}

theorem load_eq_loop {a : ArrayDomain D} (htop : a.isTop = false) (hbottom : a.isBottom = false)
    (hge : (unsignedBounds offset).1.geq (unsignedBounds a.length).2 = false) (fuel : Nat) :
    a.load fuel offset = forIndices a.join (unsignedBounds offset).2 (unsignedBounds a.length).2
      fuel (unsignedBounds offset).1 ⊥ := by
  simp [ArrayDomain.load, htop, hbottom, hge]

omit [BoundedOrder D] in
theorem store_eq_loop {a : ArrayDomain D} (htop : a.isTop = false) (hbottom : a.isBottom = false)
    (value : D) (fuel : Nat) :
    a.store fuel value offset = (forIndices (ArrayDomain.put value) (unsignedBounds offset).2
      (unsignedBounds a.length).2 fuel (unsignedBounds offset).1 a.elements).map
        fun elements => { a with elements } := by
  simp [ArrayDomain.store, htop, hbottom]

omit [BoundedOrder D] in
theorem store_mono {fuel fuel' : Nat} (hfuel : fuel ≤ fuel') {a next : ArrayDomain D}
    {value : D} {interval : Interval.Ptr false 64}
    (hstore : a.store fuel value interval = some next) :
    a.store fuel' value interval = some next := by
  cases htop : a.isTop with
  | true => simpa [ArrayDomain.store, htop] using hstore
  | false =>
      cases hbottom : a.isBottom with
      | true => simpa [ArrayDomain.store, htop, hbottom] using hstore
      | false =>
          rw [store_eq_loop htop hbottom] at hstore ⊢
          obtain ⟨elements, hloop, rfl⟩ := Option.map_eq_some_iff.mp hstore
          rw [forIndices_mono hfuel hloop, Option.map_some]

omit [SemilatticeSup D] [BoundedOrder D] in
/-- A bottom length admits no element. -/
theorem not_touched {a : ArrayDomain D} (hbottom : a.isBottom = true) (x : Index) :
    ¬ Touched a.length offset x := by
  rintro ⟨-, n, hn, -⟩
  rw [ArrayDomain.isBottom, Bool.and_eq_true] at hbottom
  exact Bool.noConfusion (hn.1.symm.trans hbottom.1)

/-- A covered element is visited by the loop. -/
theorem mem_visited (hcovered : Covered length offset) {m : Nat}
    (hm : accessLimit length offset = some m) {x : Index} (hx : Touched length offset x) :
    Index.pos x ∈ List.range' (lowerEnd offset) (m - lowerEnd offset) := by
  obtain ⟨hoffset, hlength⟩ := hcovered x hx
  have hlow := lowerEnd_le hx.1
  have hhigh : Index.pos x < m :=
    (accessLimit_spec hm _).mpr ⟨fun h => (hoffset h).le, hlength⟩
  rw [List.mem_range'_1]
  omega

/-- What a load returns when its loop ends and the first index is below the length. -/
theorem load_eq {m : Nat} {a : ArrayDomain D} (htop : a.isTop = false)
    (hbottom : a.isBottom = false)
    (hge : (unsignedBounds offset).1.geq (unsignedBounds a.length).2 = false)
    (hm : accessLimit a.length offset = some m) (hlt : m < 2 ^ 64) :
    a.load (m - lowerEnd offset + 1) offset =
      some ((List.range' (lowerEnd offset) (m - lowerEnd offset)).foldl
        (fun s k => a.join (indexAt k) s) ⊥) := by
  have hloop := forIndices_eq a.join hm hlt (lowerEnd_lt offset) ⊥
  rw [load_eq_loop htop hbottom hge]
  rw [unsignedBounds_eq offset] at hloop ⊢
  exact hloop

theorem load_sound (hcovered : Covered length offset) {m : Nat}
    (hm : accessLimit length offset = some m) (hlt : m < 2 ^ 64)
    (elements : AList fun _ : Index => D) : ∃ fuel result,
      ArrayDomain.load fuel ⟨length, elements⟩ offset = some result ∧
        ∀ x, Touched length offset x → ArrayDomain.valueAt ⟨length, elements⟩ x ≤ result := by
  let a : ArrayDomain D := ⟨length, elements⟩
  cases htop : a.isTop with
  | true => exact ⟨0, ⊤, by simp [ArrayDomain.load, a, htop], fun _ _ => le_top⟩
  | false =>
      cases hbottom : a.isBottom with
      | true =>
          refine ⟨0, ⊥, by simp [ArrayDomain.load, a, htop, hbottom], fun x hx => ?_⟩
          exact absurd hx (not_touched hbottom x)
      | false =>
          cases hge : (unsignedBounds offset).1.geq (unsignedBounds a.length).2 with
          | true =>
              exact ⟨0, ⊤, by simp [ArrayDomain.load, a, htop, hbottom, hge], fun _ _ => le_top⟩
          | false =>
              refine ⟨_, _, load_eq htop hbottom hge hm hlt, fun x hx => ?_⟩
              have hmem := (le_foldl_join a _ ⊥).2 _ (mem_visited hcovered hm hx)
              rw [indexAt_pos] at hmem
              rw [ArrayDomain.valueAt, if_neg (Bool.eq_false_iff.mp htop)]
              exact hmem

omit [BoundedOrder D] in
/-- What a store leaves when its loop ends. -/
theorem store_eq {m : Nat} {a : ArrayDomain D} (htop : a.isTop = false)
    (hbottom : a.isBottom = false) (hm : accessLimit a.length offset = some m)
    (hlt : m < 2 ^ 64) (value : D) :
    a.store (m - lowerEnd offset + 1) value offset =
      some { a with
        elements := (List.range' (lowerEnd offset) (m - lowerEnd offset)).foldl
          (fun s k => ArrayDomain.put value (indexAt k) s) a.elements } := by
  have hloop := forIndices_eq (ArrayDomain.put value) hm hlt (lowerEnd_lt offset) a.elements
  rw [store_eq_loop htop hbottom]
  rw [unsignedBounds_eq offset] at hloop ⊢
  rw [hloop]
  rfl

theorem store_sound (hcovered : Covered length offset) {m : Nat}
    (hm : accessLimit length offset = some m) (hlt : m < 2 ^ 64)
    (elements : AList fun _ : Index => D) (value : D) : ∃ fuel a,
      ArrayDomain.store fuel ⟨length, elements⟩ value offset = some a ∧
        ∀ x, (Touched length offset x → value ≤ a.valueAt x) ∧
          (¬ (Touched length offset x ∧ offset.isConstant = true) →
            ArrayDomain.valueAt ⟨length, elements⟩ x ≤ a.valueAt x) := by
  let a : ArrayDomain D := ⟨length, elements⟩
  cases htop : a.isTop with
  | true =>
      refine ⟨0, a, by simp [ArrayDomain.store, a, htop], fun x => ⟨fun _ => ?_, fun _ => le_rfl⟩⟩
      rw [ArrayDomain.valueAt, if_pos htop]
      exact le_top
  | false =>
      cases hbottom : a.isBottom with
      | true =>
          refine ⟨0, a, by simp [ArrayDomain.store, a, htop, hbottom], fun x => ⟨fun hx => ?_,
            fun _ => le_rfl⟩⟩
          exact absurd hx (not_touched hbottom x)
      | false =>
          refine ⟨_, _, store_eq htop hbottom hm hlt value, fun x => ?_⟩
          obtain ⟨hmono, hmem, -⟩ := foldl_cell value x
            (List.range' (lowerEnd offset) (m - lowerEnd offset)) elements
          rw [ArrayDomain.valueAt]
          split
          · exact ⟨fun _ => le_top, fun _ => le_top⟩
          · refine ⟨fun hx => hmem ?_, fun _ => ?_⟩
            · exact List.mem_map.mpr ⟨_, mem_visited hcovered hm hx, indexAt_pos x⟩
            · rw [ArrayDomain.valueAt, if_neg (Bool.eq_false_iff.mp htop)]
              exact hmono

omit [SemilatticeSup D] [BoundedOrder D] in
/-- An array with an element is neither top nor bottom. -/
theorem isTop_isBottom_insert (length : Interval.Ptr false 64) (x : Index) (v : D) :
    (⟨length, AList.insert x v ∅⟩ : ArrayDomain D).isTop = false ∧
      (⟨length, AList.insert x v ∅⟩ : ArrayDomain D).isBottom = false := by
  have hentries : (AList.insert x v (∅ : AList fun _ : Index => D)).entries.isEmpty = false := rfl
  constructor
  · rw [ArrayDomain.isTop, hentries, Bool.and_false]
  · rw [ArrayDomain.isBottom, hentries, Bool.and_false]

omit [BoundedOrder D] in
/-- Where stores into arrays with one element end, the loop has a limit. -/
theorem terminates_of_store (v : D)
    (hstore : ∃ fuel a, ArrayDomain.store fuel ⟨length, AList.insert (indexAt 0) v ∅⟩ v offset =
      some a) : Terminates length offset := by
  rw [terminates_iff]
  by_contra hnone
  have hlimit : ∀ m, accessLimit length offset = some m → 2 ^ 64 ≤ m := fun m hm =>
    Nat.le_of_not_lt fun hlt => hnone ⟨m, hm, hlt⟩
  obtain ⟨fuel, a, ha⟩ := hstore
  obtain ⟨htop, hbottom⟩ := isTop_isBottom_insert length (indexAt 0) v
  have hloop := forIndices_none (ArrayDomain.put v) hlimit fuel (indexAt (lowerEnd offset))
    (AList.insert (indexAt 0) v ∅)
  rw [store_eq_loop htop hbottom] at ha
  rw [unsignedBounds_eq offset] at ha hloop
  rw [hloop] at ha
  exact absurd ha.symm (Option.some_ne_none _)

/-- A cell that a store raises to top is visited. -/
theorem visited_of_store [Nontrivial D] {m : Nat} (hm : accessLimit length offset = some m)
    (hlt : m < 2 ^ 64) {x : Index} {fuel : Nat} {a : ArrayDomain D}
    (hstore : ArrayDomain.store fuel ⟨length, AList.insert x ⊥ ∅⟩ ⊤ offset = some a)
    (hvalue : ⊤ ≤ a.valueAt x) : Index.pos x < m := by
  obtain ⟨htop, hbottom⟩ := isTop_isBottom_insert length x (⊥ : D)
  have hfinal := store_eq htop hbottom hm hlt (⊤ : D)
  rw [store_eq_loop htop hbottom] at hfinal hstore
  obtain ⟨elements, hloop, rfl⟩ := Option.map_eq_some_iff.mp hstore
  obtain ⟨elements', hloop', heq⟩ := Option.map_eq_some_iff.mp hfinal
  obtain rfl := forIndices_unique hloop hloop'
  by_contra hge
  have hnot : x ∉ (List.range' (lowerEnd offset) (m - lowerEnd offset)).map indexAt := by
    intro hmem
    obtain ⟨k, hk, rfl⟩ := List.mem_map.mp hmem
    rw [List.mem_range'_1] at hk
    rw [pos_indexAt (by omega)] at hge
    omega
  have hlookup := (foldl_cell (⊤ : D) x _ (AList.insert x ⊥ ∅)).2.2 hnot
  rw [ArrayDomain.mk.injEq] at heq
  rw [← heq.2, AList.lookup_insert] at hlookup
  -- the cell is still bottom, and the array has an element, so it is not top
  have hne : elements.entries.isEmpty = false := by
    by_contra hempty
    have hnil : elements.entries = [] := List.isEmpty_iff.mp (Bool.not_eq_false _ ▸ hempty)
    rw [AList.lookup, hnil] at hlookup
    exact absurd hlookup.symm (Option.some_ne_none _)
  rw [ArrayDomain.valueAt, ArrayDomain.isTop, hne, Bool.and_false, if_neg Bool.false_ne_true,
    hlookup, Option.getD_some, top_le_iff] at hvalue
  exact bot_ne_top hvalue

/-- Sound accesses end, and lose no element. -/
theorem covered_of_accessSound [Nontrivial D] (hsound : AccessSound D length offset) :
    Terminates length offset ∧ Covered length offset := by
  have hterminates : Terminates length offset := by
    obtain ⟨fuel, a, ha, -⟩ := hsound.store (AList.insert (indexAt 0) ⊥ ∅) ⊥
    exact terminates_of_store ⊥ ⟨fuel, a, ha⟩
  refine ⟨hterminates, fun x hx => ?_⟩
  obtain ⟨m, hm, hlt⟩ := (terminates_iff length offset).mp hterminates
  obtain ⟨fuel, a, ha, hcells⟩ := hsound.store (AList.insert x ⊥ ∅) ⊤
  have hvisited := visited_of_store hm hlt ha ((hcells x).1 hx)
  obtain ⟨hoffset, hlength⟩ := (accessLimit_spec hm _).mp hvisited
  exact ⟨fun h => Nat.le_antisymm (hoffset h) (lowerEnd_le hx.1), hlength⟩

/-- **Array accesses are sound exactly when the loop has a limit and the lost ends do not
matter.** -/
theorem accessSound_iff [Nontrivial D] (length offset : Interval.Ptr false 64) :
    AccessSound D length offset ↔ Terminates length offset ∧ Covered length offset := by
  constructor
  · exact covered_of_accessSound
  · rintro ⟨hterminates, hcovered⟩
    obtain ⟨m, hm, hlt⟩ := (terminates_iff length offset).mp hterminates
    exact ⟨load_sound hcovered hm hlt, store_sound hcovered hm hlt⟩

end Access

/-- The machine integers from `lo` to `hi`. -/
def between (lo hi : Nat) : Interval.Ptr false 64 :=
  Interval.interval (.finite (indexAt lo)) (.finite (indexAt hi))

/-- The third element of an array of four. -/
theorem accessSound_third : AccessSound Bool (between 4 4) (between 2 2) := by
  refine (accessSound_iff (between 4 4) (between 2 2)).mpr ⟨Or.inl rfl, ?_⟩
  rintro x ⟨hx, -⟩
  have hpos : Index.pos x = 2 := by
    have h := hx.2
    rw [Interval.contains, Bool.and_eq_true] at h
    exact Nat.le_antisymm (leq_iff.mp h.2) (leq_iff.mp h.1)
  rw [hpos]
  exact ⟨fun _ => rfl, fun _ => by decide⟩

/-- **An access to any of four elements goes to the first one only.** -/
theorem accessSound_fails : ¬ ∀ length offset : Interval.Ptr false 64,
    AccessSound Bool length offset := by
  intro hall
  have htouched : Touched (between 4 4) (between 0 3) (indexAt 1) :=
    ⟨by decide, indexAt 4, by decide, by decide⟩
  have hfirst := ((covered_of_accessSound (hall (between 4 4) (between 0 3))).2 _ htouched).1 rfl
  exact absurd hfirst (by decide)

/-! ## Accesses through a location -/

/-- `ArrayLocation`: an array and the interval of offsets of the location in it. -/
structure ArrayLocation (D : Type) where
  base : ArrayDomain D
  offset : Interval.Ptr false 64

namespace ArrayLocation

variable {D : Type} [SemilatticeSup D] [BoundedOrder D]

/-- `interval + offset_`. -/
def shifted (this : ArrayLocation D) (interval : Interval.Ptr false 64) : Interval.Ptr false 64 :=
  Interval.clone (Interval.add interval.toInterval this.offset.toInterval)

/-- `load`. -/
def load (fuel : Nat) (this : ArrayLocation D) (interval : Interval.Ptr false 64) : Option D :=
  this.base.load fuel (this.shifted interval)

/-- `store`, with the array changed in place. -/
def store (fuel : Nat) (this : ArrayLocation D) (value : D) (interval : Interval.Ptr false 64) :
    Option (ArrayLocation D) :=
  (this.base.store fuel value (this.shifted interval)).map fun base => { this with base }

/-- An access through a location is one of the array at the sum of the offsets. -/
theorem load_le {this : ArrayLocation D} {interval : Interval.Ptr false 64}
    (hterminates : Terminates this.base.length (this.shifted interval))
    (hcovered : Covered this.base.length (this.shifted interval)) :
    ∃ fuel result, this.load fuel interval = some result ∧
      ∀ x, Touched this.base.length (this.shifted interval) x → this.base.valueAt x ≤ result := by
  obtain ⟨m, hm, hlt⟩ := (terminates_iff _ _).mp hterminates
  exact load_sound hcovered hm hlt this.base.elements

/-- A store through a location raises what the sum of the offsets may concern. -/
theorem le_store {this : ArrayLocation D} {interval : Interval.Ptr false 64} (value : D)
    (hterminates : Terminates this.base.length (this.shifted interval))
    (hcovered : Covered this.base.length (this.shifted interval)) :
    ∃ fuel next, this.store fuel value interval = some next ∧
      ∀ x, Touched this.base.length (this.shifted interval) x → value ≤ next.base.valueAt x := by
  obtain ⟨m, hm, hlt⟩ := (terminates_iff _ _).mp hterminates
  obtain ⟨fuel, a, ha, hcells⟩ := store_sound hcovered hm hlt this.base.elements value
  refine ⟨fuel, { this with base := a }, ?_, fun x hx => (hcells x).1 hx⟩
  rw [store, ha, Option.map_some]

end ArrayLocation

end ArrayAccess

end Borealis
