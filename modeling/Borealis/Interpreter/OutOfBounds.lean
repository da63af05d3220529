import Borealis.Interpreter.ArrayAccess
import Borealis.Interpreter.IntervalArith

/-!
# Out-of-bounds verdicts

`OutOfBoundsVisitor` on the abstract value of a pointer operand and the intervals of the indices of
a `getelementptr`.  The value is unfolded as far as the indices reach, so that it is a tree; integers
and floats occur in it only as elements that no index is applied to.

The visitor compares the ends that `unsignedBounds` makes of an index and of a length, where a finite
upper end becomes the lower one, and with `>` at every level: an index that is the length of an array
is accepted also when other indices follow, an index that is the number of fields of a struct is
accepted, and only the first element is asked for the other indices, if it was ever stored.

## Strategy

`Describes` gives the concrete objects of an abstract value, and `InBounds` is the access to one
object.  `Settled` are the accesses that take none of the shortcuts of the visitor; soundness follows
by induction on how an access is settled, with one concrete step for each abstract one.
-/

namespace Borealis

namespace OutOfBounds

open ArrayAccess

/-! ## Abstract values -/

/-- `AbstractDomain::Ptr`, as far as the visitor looks at it. -/
inductive Domain where
  /-- An integer or a float. -/
  | number (isTop isBottom : Bool)
  | array (length : Interval.Ptr false 64) (elements : List (Index × Domain))
  | struct (elements : List Domain)
  | function (isTop isBottom : Bool)
  | pointer (isBottom : Bool) (locations : List Domain)
  | arrayLocation (base : Domain) (offset : Interval.Ptr false 64)
  | structLocation (base : Domain) (offsets : List (Interval.Ptr false 64))
  | functionLocation (base : Domain)
  | nullLocation

namespace Domain

mutual
/-- `isTop`. -/
def isTop : Domain → Bool
  | number top _ | function top _ => top
  | array length elements => length.isTop && elements.isEmpty
  | struct elements => allTop elements
  | pointer isBottom locations => !isBottom && locations.isEmpty
  | arrayLocation base _ | structLocation base _ | functionLocation base => isTop base
  | nullLocation => false

/-- All elements are top. -/
def allTop : List Domain → Bool
  | [] => true
  | d :: ds => isTop d && allTop ds
end

mutual
/-- `isBottom`. -/
def isBottom : Domain → Bool
  | number _ bottom | function _ bottom => bottom
  | array length elements => length.isBottom && elements.isEmpty
  | struct elements => allBottom elements
  | pointer isBottom locations => isBottom && locations.isEmpty
  | arrayLocation base _ | structLocation base _ | functionLocation base => isBottom base
  | nullLocation => false

/-- All elements are bottom. -/
def allBottom : List Domain → Bool
  | [] => true
  | d :: ds => isBottom d && allBottom ds
end

end Domain

/-- `elements().find(i)`. -/
def elementAt (elements : List (Index × Domain)) (i : Index) : Option Domain :=
  (elements.find? fun element => element.1 == i).map Prod.snd

/-! ## The visitor -/

/-- The loop of `visitArray` over the elements from one bound to another, cut off after `fuel`
tests. -/
def visitElements (visit : Domain → Option Bool) (elements : List (Index × Domain))
    (last : Bound false 64) : ℕ → Bound false 64 → Option Bool
  | 0, _ => none
  | fuel + 1, i =>
    if i.leq last then
      match elementAt elements i.number with
      | none => visitElements visit elements last fuel (i + .ofInt 1)
      | some element =>
        match visit element with
        | some false => visitElements visit elements last fuel (i + .ofInt 1)
        | found => found
    else some false

/-- The loop of `visitPointer` over the locations. -/
def visitAll (visit : Domain → Option Bool) : List Domain → Option Bool
  | [] => some false
  | d :: ds =>
    match visit d with
    | some false => visitAll visit ds
    | found => found

/-- `bounds.first > length || bounds.second > length`. -/
def exceeds (index length : Interval.Ptr false 64) : Bool :=
  (unsignedBounds index).1.gt (unsignedBounds length).2 ||
    (unsignedBounds index).2.gt (unsignedBounds length).2

/-- `visit`, cut off after `fuel` calls and tests; an assertion that fails has no result. -/
def visit : ℕ → Domain → List (Interval.Ptr false 64) → Option Bool
  | 0, _, _ => none
  | fuel + 1, domain, indices =>
    match domain with
    | .array length elements =>
      if domain.isTop || domain.isBottom then some true
      else
        match indices with
        | [] => none
        | index :: rest =>
          if exceeds index length then some true
          else if rest.isEmpty then some false
          else visitElements (fun element => visit fuel element rest) elements
            (unsignedBounds index).2 fuel (unsignedBounds index).1
    | .function _ _ => some false
    | .pointer _ locations =>
      if domain.isTop || domain.isBottom then some true
      else visitAll (fun location => visit fuel location indices) locations
    | .struct elements =>
      if domain.isTop || domain.isBottom then some true
      else
        match indices with
        | [] => none
        | index :: rest =>
          let bounds := unsignedBounds index
          -- trying to load from nondetermined index of struct
          if bounds.1 ≠ bounds.2 then none
          else if elements.length < Index.pos bounds.1.number then some true
          else if rest.isEmpty then some false
          else elements[Index.pos bounds.1.number]?.bind fun element => visit fuel element rest
    | .arrayLocation base offset =>
      if domain.isTop || domain.isBottom then some true
      else
        match indices with
        | [] => none
        | index :: rest =>
          (Interval.apply .add index offset).bind fun first => visit fuel base (first :: rest)
    | .structLocation base offsets =>
      if domain.isTop || domain.isBottom then some true
      else
        match indices with
        | [] => none
        | index :: rest =>
          visitOffsets
            (fun offset => (Interval.apply .add index offset).bind fun first =>
              visit fuel base (first :: rest)) offsets
    | .functionLocation _ => some false
    | .nullLocation => some true
    -- Unknown domain type
    | .number _ _ => none
where
  /-- The loop of `visitStructLocation` over the offsets. -/
  visitOffsets (visit : Interval.Ptr false 64 → Option Bool) :
      List (Interval.Ptr false 64) → Option Bool
    | [] => some false
    | offset :: offsets =>
      match visit offset with
      | some false => visitOffsets visit offsets
      | found => found

attribute [local simp] visit

/-! ## Concrete accesses -/

/-- A concrete value; a pointer refers to a position in its target. -/
inductive Object where
  | number
  | array (elements : List Object)
  | struct (fields : List Object)
  | function
  | pointer (target : Object) (offset : Index)
  | null

mutual
/-- Every index that is applied to an array lies within its length, strictly where other indices
follow, and every index that is applied to a struct is a field number. -/
def InBounds : Object → List Index → Prop
  | .array elements, i :: rest =>
    i.pos ≤ elements.length ∧ (rest ≠ [] → i.pos < elements.length) ∧
      InBoundsAt elements i.pos rest
  | .struct fields, i :: rest => i.pos < fields.length ∧ InBoundsAt fields i.pos rest
  | .pointer target offset, i :: rest => InBounds target ((i + offset) :: rest)
  | _, _ => True

/-- The access goes on in the object at a position, if there is one. -/
def InBoundsAt : List Object → ℕ → List Index → Prop
  | [], _, _ => True
  | o :: _, 0, rest => InBounds o rest
  | _ :: os, k + 1, rest => InBoundsAt os k rest
end

/-- The concrete values of an abstract one.  An element that was never stored may be anything. -/
inductive Describes : Domain → Object → Prop
  | number {top bottom : Bool} : Describes (.number top bottom) .number
  | array {length : Interval.Ptr false 64} {elements : List (Index × Domain)} {os : List Object}
      (hsize : os.length < 2 ^ 64) (hlength : indexAt os.length ∈ length)
      (helements : ∀ (k : ℕ) o d, os[k]? = some o → elementAt elements (indexAt k) = some d →
        Describes d o) : Describes (.array length elements) (.array os)
  | struct {elements : List Domain} {os : List Object} (hsize : os.length = elements.length)
      (helements : ∀ (k : ℕ) o d, os[k]? = some o → elements[k]? = some d → Describes d o) :
      Describes (.struct elements) (.struct os)
  | function {top bottom : Bool} : Describes (.function top bottom) .function
  | unknown {isBottom : Bool} {o : Object} (htop : (Domain.pointer isBottom []).isTop = true) :
      Describes (.pointer isBottom []) o
  | pointer {isBottom : Bool} {locations : List Domain} {d : Domain} {o : Object}
      (hd : d ∈ locations) (h : Describes d o) : Describes (.pointer isBottom locations) o
  | arrayLocation {base : Domain} {offset : Interval.Ptr false 64} {target : Object} {i : Index}
      (h : Describes base target) (hi : i ∈ offset) :
      Describes (.arrayLocation base offset) (.pointer target i)
  | structLocation {base : Domain} {offsets : List (Interval.Ptr false 64)}
      {offset : Interval.Ptr false 64} {target : Object} {i : Index} (h : Describes base target)
      (hoffset : offset ∈ offsets) (hi : i ∈ offset) :
      Describes (.structLocation base offsets) (.pointer target i)
  | functionLocation {base : Domain} : Describes (.functionLocation base) .function
  | nullLocation : Describes .nullLocation .null

/-! ## Settled accesses -/

/-- The interval is one machine integer. -/
def Single (a : Interval.Ptr false 64) (k : Index) : Prop := a.lb = .finite k ∧ a.ub = .finite k

/-- The accesses on which the comparisons of the visitor decide: where an index is not above the
length, its upper end is at most the least length, and it is a single number below that length, of
an element that was stored, where other indices follow; the index of a struct is a single number that
is not the number of fields; and the sums with the offsets of a location do not wrap. -/
inductive Settled : Domain → List (Interval.Ptr false 64) → Prop
  | extreme {d : Domain} {indices : List (Interval.Ptr false 64)}
      (h : (d.isTop || d.isBottom) = true) : Settled d indices
  | number {top bottom : Bool} {indices : List (Interval.Ptr false 64)} :
      Settled (.number top bottom) indices
  | exceeds {length index : Interval.Ptr false 64} {elements : List (Index × Domain)}
      {rest : List (Interval.Ptr false 64)} (h : exceeds index length = true) :
      Settled (.array length elements) (index :: rest)
  | last {length index : Interval.Ptr false 64} {elements : List (Index × Domain)}
      (h : index.ub.highest ≤ length.lb.lowest) : Settled (.array length elements) [index]
  | element {length index : Interval.Ptr false 64} {elements : List (Index × Domain)} {k : Index}
      {d : Domain} {rest : List (Interval.Ptr false 64)} (hk : Single index k)
      (hlt : (k.pos : ℤ) < length.lb.lowest) (hd : elementAt elements k = some d)
      (h : rest ≠ [] → Settled d rest) : Settled (.array length elements) (index :: rest)
  | pastFields {elements : List Domain} {index : Interval.Ptr false 64}
      {rest : List (Interval.Ptr false 64)} (h : elements.length < lowerEnd index) :
      Settled (.struct elements) (index :: rest)
  | field {elements : List Domain} {index : Interval.Ptr false 64} {k : Index} {d : Domain}
      {rest : List (Interval.Ptr false 64)} (hk : Single index k) (hd : elements[k.pos]? = some d)
      (h : rest ≠ [] → Settled d rest) : Settled (.struct elements) (index :: rest)
  | function {top bottom : Bool} {indices : List (Interval.Ptr false 64)} :
      Settled (.function top bottom) indices
  | pointer {isBottom : Bool} {locations : List Domain} {indices : List (Interval.Ptr false 64)}
      (h : ∀ d ∈ locations, Settled d indices) : Settled (.pointer isBottom locations) indices
  | arrayLocation {base : Domain} {offset index first : Interval.Ptr false 64}
      {rest : List (Interval.Ptr false 64)} (hfits : Interval.AddFits index offset)
      (hfirst : Interval.apply .add index offset = some first) (h : Settled base (first :: rest)) :
      Settled (.arrayLocation base offset) (index :: rest)
  | structLocation {base : Domain} {offsets : List (Interval.Ptr false 64)}
      {index : Interval.Ptr false 64} {rest : List (Interval.Ptr false 64)}
      (hfits : ∀ offset ∈ offsets, Interval.AddFits index offset)
      (h : ∀ offset ∈ offsets, ∀ first, Interval.apply .add index offset = some first →
        Settled base (first :: rest)) : Settled (.structLocation base offsets) (index :: rest)
  | functionLocation {base : Domain} {indices : List (Interval.Ptr false 64)} :
      Settled (.functionLocation base) indices
  | nullLocation {indices : List (Interval.Ptr false 64)} : Settled .nullLocation indices

/-! ## The ends of an interval -/

theorem toInt_eq_pos (x : Index) : x.toInt = Index.pos x := by
  simp [BitInt.toInt, Index.pos]

theorem ends_of_mem {a : Interval.Ptr false 64} {x : Index} (hx : x ∈ a) :
    a.lb.lowest ≤ Index.pos x ∧ (Index.pos x : ℤ) ≤ a.ub.highest := by
  have hmem : x ∈ Interval.interval a.lb a.ub := by rwa [← Interval.eq_interval a]
  have hends := (Interval.mem_iff_of_nonempty ⟨x, hmem⟩ x).1 hmem
  rwa [toInt_eq_pos] at hends

theorem Single.eq_of_mem {a : Interval.Ptr false 64} {k x : Index} (h : Single a k) (hx : x ∈ a) :
    x = k := by
  obtain ⟨hlow, hhigh⟩ := ends_of_mem hx
  rw [h.1] at hlow
  rw [h.2] at hhigh
  apply BitInt.toInt_injective
  rw [toInt_eq_pos]
  exact le_antisymm hhigh hlow

theorem Single.unsignedBounds {a : Interval.Ptr false 64} {k : Index} (h : Single a k) :
    unsignedBounds a = (.finite k, .finite k) := by
  simp [ArrayAccess.unsignedBounds, h.1, h.2, Bound.isFinite, Bound.number]

/-- The number of elements of an array is one of its lengths. -/
theorem lowest_le_size {length : Interval.Ptr false 64} {n : ℕ} (hsize : n < 2 ^ 64)
    (hn : indexAt n ∈ length) : length.lb.lowest ≤ n := by
  have hlow := (ends_of_mem hn).1
  rwa [pos_indexAt hsize] at hlow

/-! ## The loops -/

theorem visitElements_single {visit : Domain → Option Bool} {elements : List (Index × Domain)}
    {k : Index} {d : Domain} {fuel : ℕ} (hd : elementAt elements k = some d)
    (hvisit : visitElements visit elements (.finite k) fuel (.finite k) = some false) :
    visit d = some false := by
  cases fuel with
  | zero => exact absurd hvisit (by simp [visitElements])
  | succ fuel =>
      have hle : (Bound.finite k).leq (.finite k) = true := leq_iff.2 (Nat.le_refl _)
      rw [visitElements, if_pos hle] at hvisit
      simp only [Bound.number, hd] at hvisit
      split at hvisit
      · assumption
      · exact hvisit

theorem visitAll_eq_false {visit : Domain → Option Bool} {ds : List Domain}
    (hvisit : visitAll visit ds = some false) : ∀ d ∈ ds, visit d = some false := by
  induction ds with
  | nil => exact fun _ hd => absurd hd List.not_mem_nil
  | cons d ds ih =>
      rw [visitAll] at hvisit
      split at hvisit
      · exact List.forall_mem_cons.2 ⟨by assumption, ih hvisit⟩
      · exact absurd hvisit (by assumption)

theorem visitOffsets_eq_false {visit : Interval.Ptr false 64 → Option Bool}
    {offsets : List (Interval.Ptr false 64)}
    (hvisit : OutOfBounds.visit.visitOffsets visit offsets = some false) :
    ∀ offset ∈ offsets, visit offset = some false := by
  induction offsets with
  | nil => exact fun _ h => absurd h List.not_mem_nil
  | cons offset offsets ih =>
      rw [visit.visitOffsets] at hvisit
      split at hvisit
      · exact List.forall_mem_cons.2 ⟨by assumption, ih hvisit⟩
      · exact absurd hvisit (by assumption)

/-! ## Soundness -/

mutual
theorem inBounds_nil : (o : Object) → InBounds o []
  | .number | .array _ | .struct _ | .function | .pointer _ _ | .null => trivial
end

theorem inBoundsAt_iff (os : List Object) (k : ℕ) (xs : List Index) :
    InBoundsAt os k xs ↔ ∀ o, os[k]? = some o → InBounds o xs := by
  induction os generalizing k with
  | nil => simp [InBoundsAt]
  | cons o os ih =>
      cases k with
      | zero => simp [InBoundsAt]
      | succ k => simpa [InBoundsAt] using ih k

theorem inBounds_function (xs : List Index) : InBounds .function xs := by
  cases xs <;> trivial

/-- The other indices of an access to a single element of an array are applied to that element. -/
theorem visit_element {fuel : ℕ} {length index next : Interval.Ptr false 64}
    {elements : List (Index × Domain)} {rest : List (Interval.Ptr false 64)} {k : Index} {d : Domain}
    (hk : Single index k) (hd : elementAt elements k = some d)
    (hvisit : visit fuel (.array length elements) (index :: next :: rest) = some false) :
    ∃ fuel', visit fuel' d (next :: rest) = some false := by
  cases fuel with
  | zero => exact absurd hvisit (by simp [visit])
  | succ fuel =>
      rw [visit] at hvisit
      split_ifs at hvisit with hextreme hexceeds hlast
      · cases hvisit
      · cases hvisit
      · exact absurd hlast (by simp)
      · rw [hk.unsignedBounds] at hvisit
        exact ⟨fuel, visitElements_single hd hvisit⟩

/-- The other indices of an access to a struct are applied to the field. -/
theorem visit_field {fuel : ℕ} {index next : Interval.Ptr false 64} {elements : List Domain}
    {rest : List (Interval.Ptr false 64)} {k : Index} {d : Domain} (hk : Single index k)
    (hd : elements[Index.pos k]? = some d)
    (hvisit : visit fuel (.struct elements) (index :: next :: rest) = some false) :
    ∃ fuel', visit fuel' d (next :: rest) = some false := by
  have hlt : Index.pos k < elements.length := (List.getElem?_eq_some_iff.1 hd).1
  cases fuel with
  | zero => exact absurd hvisit (by simp [visit])
  | succ fuel =>
      refine ⟨fuel, ?_⟩
      rw [visit] at hvisit
      by_cases hextreme :
          ((Domain.struct elements).isTop || (Domain.struct elements).isBottom) = true
      · rw [if_pos hextreme] at hvisit
        cases hvisit
      · rw [if_neg hextreme] at hvisit
        simpa [hk.unsignedBounds, Bound.number, hd, Nat.not_lt.2 hlt.le] using hvisit

/-- A pointer that is not reported has known targets, and none of them is reported. -/
theorem visit_pointer {fuel : ℕ} {top : Bool} {locations : List Domain}
    {indices : List (Interval.Ptr false 64)}
    (hvisit : visit fuel (.pointer top locations) indices = some false) :
    (Domain.pointer top locations).isTop = false ∧
      ∃ fuel', ∀ location ∈ locations, visit fuel' location indices = some false := by
  cases fuel with
  | zero => exact absurd hvisit (by simp [visit])
  | succ fuel =>
      rw [visit] at hvisit
      split_ifs at hvisit with hextreme
      · cases hvisit
      · rw [Bool.or_eq_true_iff, not_or, Bool.not_eq_true] at hextreme
        exact ⟨hextreme.1, fuel, visitAll_eq_false hvisit⟩

/-- The offset of an element is added to the first index. -/
theorem visit_arrayLocation {fuel : ℕ} {base : Domain} {offset index : Interval.Ptr false 64}
    {rest : List (Interval.Ptr false 64)}
    (hvisit : visit fuel (.arrayLocation base offset) (index :: rest) = some false) :
    ∃ fuel' first, Interval.apply .add index offset = some first ∧
      visit fuel' base (first :: rest) = some false := by
  cases fuel with
  | zero => exact absurd hvisit (by simp [visit])
  | succ fuel =>
      rw [visit] at hvisit
      split_ifs at hvisit with hextreme
      · cases hvisit
      · exact ⟨fuel, Option.bind_eq_some_iff.1 hvisit⟩

/-- Each offset of a field is added to the first index. -/
theorem visit_structLocation {fuel : ℕ} {base : Domain} {index : Interval.Ptr false 64}
    {offsets rest : List (Interval.Ptr false 64)}
    (hvisit : visit fuel (.structLocation base offsets) (index :: rest) = some false) :
    ∃ fuel', ∀ offset ∈ offsets, ∃ first, Interval.apply .add index offset = some first ∧
      visit fuel' base (first :: rest) = some false := by
  cases fuel with
  | zero => exact absurd hvisit (by simp [visit])
  | succ fuel =>
      rw [visit] at hvisit
      split_ifs at hvisit with hextreme
      · cases hvisit
      · refine ⟨fuel, fun offset hoffset => ?_⟩
        exact Option.bind_eq_some_iff.1 (visitOffsets_eq_false hvisit offset hoffset)

/-- An index of a struct whose lower end is above the number of fields is reported. -/
theorem visit_pastFields {fuel : ℕ} {index : Interval.Ptr false 64} {elements : List Domain}
    {rest : List (Interval.Ptr false 64)} (h : elements.length < lowerEnd index) :
    visit fuel (.struct elements) (index :: rest) ≠ some false := by
  have hpos := pos_indexAt (lowerEnd_lt index)
  cases fuel with
  | zero => simp [visit]
  | succ fuel =>
      rw [visit]
      by_cases hextreme :
          ((Domain.struct elements).isTop || (Domain.struct elements).isBottom) = true
      · rw [if_pos hextreme]
        simp
      · rw [if_neg hextreme]
        simp only [unsignedBounds_eq, Bound.number, hpos, if_pos h]
        split_ifs <;> simp

/-- The sum of an index and an offset lies in the sum of their intervals. -/
theorem add_mem {index offset first : Interval.Ptr false 64}
    (hfits : Interval.AddFits index offset) (hfirst : Interval.apply .add index offset = some first)
    {x i : Index} (hx : x ∈ index) (hi : i ∈ offset) : x + i ∈ first := by
  obtain ⟨r, hr, hsum⟩ := (Interval.sound_add_iff ⟨x, hx⟩ ⟨i, hi⟩).2 hfits
  obtain rfl := Option.some.inj (hr.symm.trans hfirst)
  exact hsum x hx i hi

/-- An access that the visitor reports at once, or that reaches no object with a length. -/
theorem inBounds_of_extreme {d : Domain} {indices : List (Interval.Ptr false 64)} {fuel : ℕ}
    (h : (d.isTop || d.isBottom) = true) (hvisit : visit fuel d indices = some false) {o : Object}
    {xs : List Index} (ho : Describes d o) : InBounds o xs := by
  cases fuel with
  | zero => exact absurd hvisit (by simp [visit])
  | succ fuel =>
      cases ho with
      | function => exact inBounds_function xs
      | functionLocation => exact inBounds_function xs
      | number => exact absurd hvisit (by simp [visit])
      | nullLocation => exact absurd hvisit (by simp [visit])
      | array | struct | unknown | pointer | arrayLocation | structLocation =>
          simp [visit, h] at hvisit

/-- **A settled access that is not reported is in bounds.** -/
theorem Settled.inBounds {d : Domain} {indices : List (Interval.Ptr false 64)}
    (hsettled : Settled d indices) {fuel : ℕ} (hvisit : visit fuel d indices = some false)
    {o : Object} {xs : List Index} (ho : Describes d o)
    (hxs : List.Forall₂ (fun (x : Index) index => x ∈ index) xs indices) : InBounds o xs := by
  induction hsettled generalizing fuel o xs with
  | extreme h => exact inBounds_of_extreme h hvisit ho
  | number =>
      cases fuel <;> exact absurd hvisit (by simp [visit])
  | exceeds h =>
      cases fuel with
      | zero => exact absurd hvisit (by simp [visit])
      | succ fuel => simp [visit, h] at hvisit
  | last h =>
      obtain - | ⟨hx, hnil⟩ := hxs
      obtain rfl := List.forall₂_nil_right_iff.1 hnil
      cases ho with
      | array hsize hlength helements =>
          -- the upper end of the index, the least length, and the length
          have hle : (Index.pos _ : ℤ) ≤ _ :=
            ((ends_of_mem hx).2.trans h).trans (lowest_le_size hsize hlength)
          refine ⟨Int.ofNat_le.1 hle, fun hne => absurd rfl hne, ?_⟩
          exact (inBoundsAt_iff _ _ _).2 fun o _ => inBounds_nil o
  | element hk hlt hd h ih =>
      obtain - | ⟨hx, hrest⟩ := hxs
      obtain rfl := hk.eq_of_mem hx
      cases ho with
      | array hsize hlength helements =>
          have hinside : (Index.pos _ : ℤ) < _ := lt_of_lt_of_le hlt (lowest_le_size hsize hlength)
          have hpos := Int.ofNat_lt.1 hinside
          refine ⟨hpos.le, fun _ => hpos, (inBoundsAt_iff _ _ _).2 fun o ho => ?_⟩
          cases hrest with
          | nil => exact inBounds_nil o
          | cons hy hrest =>
              obtain ⟨fuel', hvisit⟩ := visit_element hk hd hvisit
              refine ih (List.cons_ne_nil _ _) hvisit (helements _ o _ ho ?_) (.cons hy hrest)
              rw [indexAt_pos]
              exact hd
  | pastFields h => exact absurd hvisit (visit_pastFields h)
  | field hk hd h ih =>
      obtain - | ⟨hx, hrest⟩ := hxs
      obtain rfl := hk.eq_of_mem hx
      cases ho with
      | struct hsize helements =>
          have hlt := (List.getElem?_eq_some_iff.1 hd).1
          refine ⟨hsize ▸ hlt, (inBoundsAt_iff _ _ _).2 fun o ho => ?_⟩
          cases hrest with
          | nil => exact inBounds_nil o
          | cons hy hrest =>
              obtain ⟨fuel', hvisit⟩ := visit_field hk hd hvisit
              exact ih (List.cons_ne_nil _ _) hvisit (helements _ o _ ho hd) (.cons hy hrest)
  | function =>
      cases ho
      exact inBounds_function xs
  | pointer h ih =>
      obtain ⟨hknown, fuel', hvisit⟩ := visit_pointer hvisit
      cases ho with
      | unknown htop => exact absurd (htop.symm.trans hknown) (by decide)
      | pointer hd ho => exact ih _ hd (hvisit _ hd) ho hxs
  | arrayLocation hfits hfirst h ih =>
      obtain - | ⟨hx, hrest⟩ := hxs
      obtain ⟨fuel', first, hsum, hvisit⟩ := visit_arrayLocation hvisit
      obtain rfl := Option.some.inj (hsum.symm.trans hfirst)
      cases ho with
      | arrayLocation ho hi =>
          rw [InBounds]
          exact ih hvisit ho (.cons (add_mem hfits hfirst hx hi) hrest)
  | structLocation hfits h ih =>
      obtain - | ⟨hx, hrest⟩ := hxs
      obtain ⟨fuel', hvisit⟩ := visit_structLocation hvisit
      cases ho with
      | structLocation ho hoffset hi =>
          obtain ⟨first, hfirst, hvisit⟩ := hvisit _ hoffset
          rw [InBounds]
          exact ih _ hoffset first hfirst hvisit ho
            (.cons (add_mem (hfits _ hoffset) hfirst hx hi) hrest)
  | functionLocation =>
      cases ho
      exact inBounds_function xs
  | nullLocation =>
      cases fuel <;> exact absurd hvisit (by simp [visit])

/-- A pointer to the first of four pairs, of which the second one was stored. -/
def pairs : Domain :=
  .pointer false [.arrayLocation (.array (between 4 4)
    [(indexAt 1, .struct [.number false false, .number false false])]) (between 0 0)]

end OutOfBounds

end Borealis
