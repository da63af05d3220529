import Mathlib.Data.List.AList
import Mathlib.Order.Lattice
import Mathlib.Order.Lattice.Nat

/-!
# Environments

`Interpreter/Domain/SeparateDomain.hpp`: a map from variables to values of an inner lattice.

The operations read a variable that is not in the map in two ways.  `isTop` and `leq` take it for
the greatest value: a map without entries is top, and below every other one.  `joinWith` and
`meetWith` both keep the value of the other map, so the one takes it for the least and the other for
the greatest value.  And where both maps have the variable, `leq` asks for equal values.

## Strategy

`lookup_combine` says what a variable has after `joinWith` or `meetWith`; from it every law is an
equation or an inequality of the values at one variable (`leq_join_iff`, `meet_leq_left_iff` and
the others).
-/

namespace Borealis

/-- `SeparateDomain`. -/
structure SeparateDomain (Var D : Type) where
  values : AList fun _ : Var => D
  isBottom : Bool

namespace SeparateDomain

variable {Var D : Type} [DecidableEq Var]

/-- `top`. -/
def top : SeparateDomain Var D :=
  ⟨∅, false⟩

/-- `bottom`. -/
def bottom : SeparateDomain Var D :=
  ⟨∅, true⟩

/-- `isTop`. -/
def isTop (this : SeparateDomain Var D) : Bool :=
  !this.isBottom && this.values.entries.isEmpty

/-- `setBottom`. -/
def setBottom (_ : SeparateDomain Var D) : SeparateDomain Var D :=
  bottom

/-- Every variable of the one map has an equal value in the other. -/
def valuesIn [DecidableEq D] (values other : AList fun _ : Var => D) : Bool :=
  values.entries.all fun it => other.lookup it.1 = some it.2

/-- `leq`. -/
def leq [DecidableEq D] (this other : SeparateDomain Var D) : Bool :=
  if this.isBottom then true
  else if other.isBottom then false
  else valuesIn this.values other.values

/-- `equals`. -/
def equals [DecidableEq D] (this other : SeparateDomain Var D) : Bool :=
  if this.isBottom then other.isBottom
  else if other.isBottom then false
  else if this.values.entries.length ≠ other.values.entries.length then false
  else valuesIn this.values other.values

/-- The body of the loop of `joinWith`, `meetWith` and `widenWith`. -/
def update (op : D → D → D) (values : AList fun _ : Var => D) (it : Sigma fun _ : Var => D) :
    AList fun _ : Var => D :=
  match values.lookup it.1 with
  | none => values.insert it.1 it.2
  | some cur => values.insert it.1 (op cur it.2)

/-- The loop over the entries of the other map. -/
def combine (op : D → D → D) (values other : AList fun _ : Var => D) : AList fun _ : Var => D :=
  other.entries.foldl (update op) values

/-- `joinWith`, and `widenWith` with the operator of the inner lattice. -/
def combineWith (op : D → D → D) (this other : SeparateDomain Var D) : SeparateDomain Var D :=
  if other.isBottom then this
  else if this.isBottom then other
  else { this with values := combine op this.values other.values }

/-- `join`. -/
def join [Lattice D] (this other : SeparateDomain Var D) : SeparateDomain Var D :=
  this.combineWith (· ⊔ ·) other

/-- `meet`. -/
def meet [Lattice D] (this other : SeparateDomain Var D) : SeparateDomain Var D :=
  if this.isBottom then this
  else if other.isBottom then this.setBottom
  else { this with values := combine (· ⊓ ·) this.values other.values }

/-! ## Maps -/

/-- What the value of a variable becomes. -/
def merge (op : D → D → D) : Option D → Option D → Option D
  | none, other => other
  | some cur, none => some cur
  | some cur, some other => some (op cur other)

theorem lookup_update (op : D → D → D) (values : AList fun _ : Var => D)
    (it : Sigma fun _ : Var => D) (x : Var) :
    (update op values it).lookup x =
      if x = it.1 then merge op (values.lookup x) (some it.2) else values.lookup x := by
  unfold update
  by_cases hx : x = it.1
  · subst hx
    rw [if_pos rfl]
    cases hcur : values.lookup it.1 with
    | none => rw [AList.lookup_insert, merge]
    | some cur => rw [AList.lookup_insert, merge]
  · rw [if_neg hx]
    cases values.lookup it.1 with
    | none => exact AList.lookup_insert_ne hx
    | some cur => exact AList.lookup_insert_ne hx

theorem lookup_foldl_update (op : D → D → D) (entries : List (Sigma fun _ : Var => D))
    (hentries : entries.NodupKeys) (values : AList fun _ : Var => D) (x : Var) :
    (entries.foldl (update op) values).lookup x =
      merge op (values.lookup x) (entries.dlookup x) := by
  induction entries generalizing values with
  | nil =>
      rw [List.foldl_nil]
      cases values.lookup x <;> rfl
  | cons it entries ih =>
      obtain ⟨hnew, hrest⟩ := List.nodupKeys_cons.mp hentries
      rw [List.foldl_cons, ih hrest, lookup_update]
      by_cases hx : x = it.1
      · subst hx
        rw [if_pos rfl, List.dlookup_eq_none.mpr hnew]
        obtain ⟨y, d⟩ := it
        rw [List.dlookup_cons_eq]
        cases values.lookup y <;> rfl
      · obtain ⟨y, d⟩ := it
        rw [if_neg hx, List.dlookup_cons_ne _ _ hx]

/-- **What a variable has after the loop.** -/
theorem lookup_combine (op : D → D → D) (values other : AList fun _ : Var => D) (x : Var) :
    (combine op values other).lookup x = merge op (values.lookup x) (other.lookup x) :=
  lookup_foldl_update op other.entries other.nodupKeys values x

section Order

variable [DecidableEq D]

theorem valuesIn_iff {values other : AList fun _ : Var => D} :
    valuesIn values other = true ↔
      ∀ x d, values.lookup x = some d → other.lookup x = some d := by
  rw [valuesIn, List.all_eq_true]
  constructor
  · intro h x d hx
    exact of_decide_eq_true (h ⟨x, d⟩ (AList.mem_lookup_iff.mp hx))
  · intro h it hit
    exact decide_eq_true (h it.1 it.2 (AList.mem_lookup_iff.mpr hit))

theorem leq_iff {this other : SeparateDomain Var D} (hthis : this.isBottom = false)
    (hother : other.isBottom = false) :
    this.leq other = true ↔
      ∀ x d, this.values.lookup x = some d → other.values.lookup x = some d := by
  rw [leq, hthis, hother, if_neg Bool.false_ne_true, if_neg Bool.false_ne_true, valuesIn_iff]

theorem leq_of_isBottom {this : SeparateDomain Var D} (hthis : this.isBottom = true)
    (other : SeparateDomain Var D) : this.leq other = true := by
  rw [leq, if_pos hthis]

theorem leq_refl (this : SeparateDomain Var D) : this.leq this = true := by
  cases hthis : this.isBottom with
  | true => exact leq_of_isBottom hthis this
  | false => exact (leq_iff hthis hthis).mpr fun _ _ h => h

omit [DecidableEq D] in
theorem lookup_eq_none_of_isTop {this : SeparateDomain Var D} (h : this.isTop = true) (x : Var) :
    this.values.lookup x = none := by
  rw [isTop, Bool.and_eq_true, List.isEmpty_iff] at h
  rw [AList.lookup, h.2, List.dlookup_nil]

omit [DecidableEq D] in
theorem isTop_of_lookup {this : SeparateDomain Var D} (hthis : this.isBottom = false)
    (h : ∀ x, this.values.lookup x = none) : this.isTop = true := by
  rw [isTop, hthis, Bool.not_false, Bool.true_and, List.isEmpty_iff,
    List.eq_nil_iff_forall_not_mem]
  rintro ⟨x, d⟩ hmem
  exact Option.some_ne_none d ((AList.mem_lookup_iff.mpr hmem).symm.trans (h x))

theorem equals_iff {this other : SeparateDomain Var D} (hthis : this.isBottom = false)
    (hother : other.isBottom = false) :
    this.equals other = true ↔ ∀ x, this.values.lookup x = other.values.lookup x := by
  rw [equals, hthis, hother, if_neg Bool.false_ne_true, if_neg Bool.false_ne_true]
  constructor
  · intro h x
    split at h
    · cases h
    · next hlength =>
        have hsub := valuesIn_iff.mp h
        have hsubset : this.values.entries ⊆ other.values.entries := fun it hit =>
          AList.mem_lookup_iff.mp (hsub it.1 it.2 (AList.mem_lookup_iff.mpr hit))
        -- as many entries, and none twice
        have hperm := (List.subperm_of_subset (List.NodupKeys.nodup this.values.nodupKeys)
          hsubset).perm_of_length_le (not_not.mp hlength).ge
        cases hx : this.values.lookup x with
        | some d => exact (hsub x d hx).symm
        | none =>
            cases hx' : other.values.lookup x with
            | none => rfl
            | some d =>
                have hmem := hperm.mem_iff.mpr (AList.mem_lookup_iff.mp hx')
                exact absurd (hx.symm.trans (AList.mem_lookup_iff.mpr hmem))
                  (Option.some_ne_none d).symm
  · intro h
    have hperm : this.values.entries.Perm other.values.entries :=
      (List.perm_ext_iff_of_nodup (List.NodupKeys.nodup this.values.nodupKeys)
        (List.NodupKeys.nodup other.values.nodupKeys)).mpr fun it => by
          obtain ⟨x, d⟩ := it
          rw [← AList.mem_lookup_iff, ← AList.mem_lookup_iff, h x]
    rw [if_neg (not_not.mpr hperm.length_eq), valuesIn_iff]
    exact fun x d hx => (h x).symm.trans hx

/-- **`leq` in both directions is `equals`.** -/
theorem leq_leq_eq_equals (this other : SeparateDomain Var D) :
    (this.leq other && other.leq this) = this.equals other := by
  cases hthis : this.isBottom with
  | true => simp [leq, equals, hthis]
  | false =>
      cases hother : other.isBottom with
      | true => simp [leq, equals, hthis, hother]
      | false =>
          rw [Bool.eq_iff_iff, Bool.and_eq_true, leq_iff hthis hother, leq_iff hother hthis,
            equals_iff hthis hother]
          constructor
          · rintro ⟨hforth, hback⟩ x
            exact Option.ext fun d => ⟨hforth x d, hback x d⟩
          · intro h
            exact ⟨fun x d hx => (h x).symm.trans hx, fun x d hx => (h x).trans hx⟩

end Order

/-! ## The laws -/

section Laws

variable [Lattice D] [DecidableEq D]

/-- The lattice laws of two environments. -/
structure Laws (a b : SeparateDomain Var D) : Prop where
  left_leq_join : a.leq (a.join b) = true
  right_leq_join : b.leq (a.join b) = true
  meet_leq_left : (a.meet b).leq a = true
  meet_leq_right : (a.meet b).leq b = true
  leq_top : a.leq top = true ∧ b.leq top = true
  join_top : (a.join top).equals top = true ∧ (b.join top).equals top = true
  leq_antisymm : (a.leq b && b.leq a) = a.equals b

variable {a b : SeparateDomain Var D}

omit [DecidableEq D] in
theorem join_isBottom (ha : a.isBottom = false) (hb : b.isBottom = false) :
    (a.join b).isBottom = false := by
  simp [join, combineWith, ha, hb]

omit [DecidableEq D] in
theorem lookup_join (ha : a.isBottom = false) (hb : b.isBottom = false) (x : Var) :
    (a.join b).values.lookup x = merge (· ⊔ ·) (a.values.lookup x) (b.values.lookup x) := by
  rw [← lookup_combine]
  simp [join, combineWith, ha, hb]

omit [DecidableEq D] in
theorem meet_isBottom (ha : a.isBottom = false) (hb : b.isBottom = false) :
    (a.meet b).isBottom = false := by
  simp [meet, ha, hb]

omit [DecidableEq D] in
theorem lookup_meet (ha : a.isBottom = false) (hb : b.isBottom = false) (x : Var) :
    (a.meet b).values.lookup x = merge (· ⊓ ·) (a.values.lookup x) (b.values.lookup x) := by
  rw [← lookup_combine]
  simp [meet, ha, hb]

/-- With a bottom environment, a join is the other one and a meet is bottom. -/
theorem leq_of_bottom (h : a.isBottom = true ∨ b.isBottom = true) :
    (a.leq (a.join b) = true ∧ b.leq (a.join b) = true) ∧
      (a.meet b).leq a = true ∧ (a.meet b).leq b = true := by
  cases ha : a.isBottom with
  | true =>
      have hmeet : a.meet b = a := by simp [meet, ha]
      rw [hmeet]
      refine ⟨⟨leq_of_isBottom ha _, ?_⟩, leq_of_isBottom ha a, leq_of_isBottom ha b⟩
      cases hb : b.isBottom with
      | true => exact leq_of_isBottom hb _
      | false =>
          have hjoin : a.join b = b := by simp [join, combineWith, ha, hb]
          rw [hjoin]
          exact leq_refl b
  | false =>
      have hb := h.resolve_left (by simp [ha])
      have hjoin : a.join b = a := by simp [join, combineWith, hb]
      have hmeet : a.meet b = bottom := by simp [meet, ha, hb, setBottom]
      rw [hjoin, hmeet]
      exact ⟨⟨leq_refl a, leq_of_isBottom hb a⟩, leq_of_isBottom rfl a, leq_of_isBottom rfl b⟩

/-- A join is above both environments where they agree on the variables they share. -/
theorem leq_join_iff (ha : a.isBottom = false) (hb : b.isBottom = false) :
    (a.leq (a.join b) = true ∧ b.leq (a.join b) = true) ↔
      ∀ x d e, a.values.lookup x = some d → b.values.lookup x = some e → d = e := by
  have hjoin := join_isBottom ha hb
  rw [leq_iff ha hjoin, leq_iff hb hjoin]
  simp only [lookup_join ha hb]
  constructor
  · rintro ⟨hleft, hright⟩ x d e hd he
    have hl := hleft x d hd
    have hr := hright x e he
    rw [hd, he, merge] at hl hr
    exact (Option.some.inj hl).symm.trans (Option.some.inj hr)
  · intro h
    constructor
    · intro x d hd
      rw [hd]
      cases he : b.values.lookup x with
      | none => rw [merge]
      | some e => rw [merge, h x d e hd he, sup_idem]
    · intro x e he
      rw [he]
      cases hd : a.values.lookup x with
      | none => rw [merge]
      | some d => rw [merge, h x d e hd he, sup_idem]

/-- A meet is below both environments only where they are equal. -/
theorem meet_leq_iff (ha : a.isBottom = false) (hb : b.isBottom = false) :
    ((a.meet b).leq a = true ∧ (a.meet b).leq b = true) ↔
      ∀ x, a.values.lookup x = b.values.lookup x := by
  have hmeet := meet_isBottom ha hb
  rw [leq_iff hmeet ha, leq_iff hmeet hb]
  simp only [lookup_meet ha hb]
  constructor
  · rintro ⟨hleft, hright⟩ x
    cases hd : a.values.lookup x with
    | none =>
        cases he : b.values.lookup x with
        | none => rfl
        | some e => exact hd.symm.trans (hleft x e (by rw [hd, he, merge]))
    | some d =>
        cases he : b.values.lookup x with
        | none => exact (hright x d (by rw [hd, he, merge])).symm.trans he
        | some e =>
            have hmeet : merge (· ⊓ ·) (a.values.lookup x) (b.values.lookup x) = some (d ⊓ e) := by
              rw [hd, he, merge]
            exact hd.symm.trans ((hleft x _ hmeet).trans ((hright x _ hmeet).symm.trans he))
  · intro h
    constructor
    · intro x d hmeet
      rw [h x] at hmeet ⊢
      cases he : b.values.lookup x with
      | none => rwa [he, merge] at hmeet
      | some e => rwa [he, merge, inf_idem] at hmeet
    · intro x d hmeet
      rw [h x] at hmeet
      cases he : b.values.lookup x with
      | none => rwa [he, merge] at hmeet
      | some e => rwa [he, merge, inf_idem] at hmeet

omit [Lattice D] in
/-- `top` is above the environments without a value only. -/
theorem leq_top_iff : a.leq top = true ↔ a.isBottom = true ∨ a.isTop = true := by
  cases ha : a.isBottom with
  | true => exact iff_of_true (leq_of_isBottom ha top) (Or.inl rfl)
  | false =>
      rw [leq_iff ha rfl, or_iff_right Bool.false_ne_true]
      constructor
      · intro h
        refine isTop_of_lookup ha fun x => ?_
        cases hx : a.values.lookup x with
        | none => rfl
        | some d => exact absurd (h x d hx) (Option.some_ne_none d).symm
      · intro h x d hx
        exact absurd (hx.symm.trans (lookup_eq_none_of_isTop h x)) (Option.some_ne_none d)

theorem join_top_of_leq_top (h : a.leq top = true) : (a.join top).equals top = true := by
  cases ha : a.isBottom with
  | true =>
      have hjoin : a.join top = top := by
        simp [join, combineWith, ha, top]
      rw [hjoin, ← leq_leq_eq_equals, leq_refl, Bool.true_and]
  | false =>
      have htop : (top : SeparateDomain Var D).isBottom = false := rfl
      rw [equals_iff (join_isBottom ha htop) htop]
      intro x
      have hx := lookup_eq_none_of_isTop ((leq_top_iff.mp h).resolve_left (by simp [ha])) x
      rw [lookup_join ha htop, hx, merge]

/-- **The laws hold exactly between environments that say nothing**: each is bottom or top. -/
theorem environmentLaws_iff (a b : SeparateDomain Var D) :
    Laws a b ↔ (a.isBottom = true ∨ a.isTop = true) ∧ (b.isBottom = true ∨ b.isTop = true) := by
  constructor
  · intro h
    exact ⟨leq_top_iff.mp h.leq_top.1, leq_top_iff.mp h.leq_top.2⟩
  · intro h
    have hlaws : (a.leq (a.join b) = true ∧ b.leq (a.join b) = true) ∧
        (a.meet b).leq a = true ∧ (a.meet b).leq b = true := by
      by_cases hbottom : a.isBottom = true ∨ b.isBottom = true
      · exact leq_of_bottom hbottom
      · rw [not_or, Bool.not_eq_true, Bool.not_eq_true] at hbottom
        obtain ⟨ha, hb⟩ := hbottom
        have hax := lookup_eq_none_of_isTop (h.1.resolve_left (by simp [ha]))
        have hbx := lookup_eq_none_of_isTop (h.2.resolve_left (by simp [hb]))
        refine ⟨(leq_join_iff ha hb).mpr fun x d e hd _ => ?_, (meet_leq_iff ha hb).mpr fun x => ?_⟩
        · exact absurd ((hax x).symm.trans hd) (Option.some_ne_none d).symm
        · rw [hax x, hbx x]
    obtain ⟨⟨hleft, hright⟩, hmeetLeft, hmeetRight⟩ := hlaws
    have htop := And.intro (leq_top_iff.mpr h.1) (leq_top_iff.mpr h.2)
    exact ⟨hleft, hright, hmeetLeft, hmeetRight, htop,
      ⟨join_top_of_leq_top htop.1, join_top_of_leq_top htop.2⟩, leq_leq_eq_equals a b⟩

/-- `x = 1` is not below its join with `x = 2`, and `top` not above it. -/
theorem not_environmentLaws :
    ¬ ∀ a b : SeparateDomain Bool ℕ, Laws a b := by
  intro h
  have hleft := (h ⟨AList.insert true 1 ∅, false⟩ ⟨AList.insert true 2 ∅, false⟩).left_leq_join
  exact absurd hleft (by decide)

end Laws

end SeparateDomain

end Borealis
