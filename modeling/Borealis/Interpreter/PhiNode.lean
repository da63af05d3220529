import Borealis.Interpreter.IntervalLattice

/-!
# Widening at phi nodes

`Interpreter::visitPHINode` for integer phi nodes.  The first visit joins the values of the
incoming edges.  Every later visit folds `widen` over them, starting from bottom: the previous
value of the phi decides that there is widening, but takes no part in it, and the first edge that
has a value is only copied.

## Strategy

When the first edge keeps its value, every later value of the phi is that value with some ends
opened to infinity (`Opened`).  On such intervals widening is monotone, so the ends, once opened,
stay open, and each change opens one of four ends.

When the value of the first edge grows, the phi takes it over as it is.  The runs with
`upTo 0, upTo 1, …` on the first edge, and `upTo 0` on all others, change the phi at every visit.
-/

namespace Borealis

namespace PhiNode

variable {width : Nat}

/-- `visitPHINode`.  An incoming edge has a value when its predecessor has been visited and the
state knows the value; without any the source fails an assertion. -/
def visitPHINode (previous : Option (DoubleInterval width))
    (incoming : List (Option (DoubleInterval width))) : Option (DoubleInterval width) :=
  let values := incoming.filterMap id
  if values.isEmpty then none
  else
    some (match previous with
      | none => values.foldl DoubleInterval.join DoubleInterval.bottom
      | some _ => values.foldl DoubleInterval.widen DoubleInterval.bottom)

/-- What the value of an incoming edge does during a run: it stays the same, and is not bottom; it
grows; or it is a function of the previous value of the phi, and grows. -/
inductive Edge where
  | fixed
  | growing
  | back
deriving DecidableEq

/-- An edge without a value may get one; a value may grow. -/
def Below : Option (DoubleInterval width) → Option (DoubleInterval width) → Prop
  | none, _ => True
  | some a, some b => DoubleInterval.leq a b = true
  | some _, none => False

/-- Functions that are monotone for `leq`. -/
def LeqMonotone (f : DoubleInterval width → DoubleInterval width) : Prop :=
  ∀ a b, DoubleInterval.leq a b = true → DoubleInterval.leq (f a) (f b) = true

/-- A sequence of visits of one phi node: the values of its incoming edges at each visit, and the
value it takes. -/
structure Run (edges : List Edge) (width : Nat) where
  incoming : Nat → Nat → Option (DoubleInterval width)
  value : Nat → DoubleInterval width
  first : visitPHINode none ((List.range edges.length).map (incoming 0)) = some (value 0)
  next : ∀ i, visitPHINode (some (value i)) ((List.range edges.length).map (incoming (i + 1))) =
    some (value (i + 1))
  grows : ∀ i j, Below (incoming i j) (incoming (i + 1) j)
  fixed : ∀ j, edges[j]? = some .fixed →
    ∃ x, x.isBottom = false ∧ ∀ i, incoming i j = some x
  back : ∀ j, edges[j]? = some .back →
    ∃ f, LeqMonotone f ∧ ∀ i, incoming (i + 1) j = some (f (value i))

/-- How often the value changes in `n` visits after the first. -/
def changes (value : Nat → DoubleInterval width) : Nat → Nat
  | 0 => 0
  | n + 1 => changes value n + if (value n).equals (value (n + 1)) then 0 else 1

/-- The phi changes a bounded number of times, and the bound does not depend on the width. -/
def Stabilises (edges : List Edge) : Prop :=
  ∃ N, ∀ width, 1 < width → ∀ run : Run edges width, ∀ n, changes run.value n ≤ N

/-- After every visit the value is above every incoming one. -/
def AboveIncoming (edges : List Edge) : Prop :=
  ∀ width, 1 < width → ∀ run : Run edges width, ∀ i j x, j < edges.length →
    run.incoming i j = some x → DoubleInterval.leq x (run.value i) = true

/-! ## The value is above the incoming ones -/

theorem leq_foldl {op : DoubleInterval width → DoubleInterval width → DoubleInterval width}
    (hop : ∀ a b, DoubleInterval.leq a (op a b) = true ∧ DoubleInterval.leq b (op a b) = true)
    (values : List (DoubleInterval width)) (a : DoubleInterval width) :
    DoubleInterval.leq a (values.foldl op a) = true ∧
      ∀ x ∈ values, DoubleInterval.leq x (values.foldl op a) = true := by
  induction values generalizing a with
  | nil => exact ⟨DoubleInterval.leq_refl a, by simp⟩
  | cons y values ih =>
      obtain ⟨hacc, hvalues⟩ := ih (op a y)
      refine ⟨DoubleInterval.leq_trans (hop a y).1 hacc, fun x hx => ?_⟩
      rcases List.mem_cons.mp hx with rfl | hx
      · exact DoubleInterval.leq_trans (hop a x).2 hacc
      · exact hvalues x hx

theorem leq_visitPHINode (hwidth : 1 < width) {previous : Option (DoubleInterval width)}
    {incoming : List (Option (DoubleInterval width))} {result x : DoubleInterval width}
    (hvisit : visitPHINode previous incoming = some result) (hx : some x ∈ incoming) :
    DoubleInterval.leq x result = true := by
  have hmem : x ∈ incoming.filterMap id := List.mem_filterMap.mpr ⟨some x, hx, rfl⟩
  unfold visitPHINode at hvisit
  simp only at hvisit
  split at hvisit
  · exact absurd hvisit (by simp)
  · rw [← Option.some.inj hvisit]
    cases previous with
    | none => exact (leq_foldl (DoubleInterval.leq_join hwidth) _ _).2 x hmem
    | some _ => exact (leq_foldl (DoubleInterval.leq_widen hwidth) _ _).2 x hmem

theorem aboveIncoming (edges : List Edge) : AboveIncoming edges := by
  intro width hwidth run i j x hj hx
  have hmem : some x ∈ (List.range edges.length).map (run.incoming i) :=
    List.mem_map.mpr ⟨j, List.mem_range.mpr hj, hx⟩
  cases i with
  | zero => exact leq_visitPHINode hwidth run.first hmem
  | succ i => exact leq_visitPHINode hwidth (run.next i) hmem

/-! ## A fixed first edge -/

/-- `v` is `x` with some of its ends opened to infinity. -/
structure Opened (x v : DoubleInterval width) : Prop where
  notBottom : v.isBottom = false
  firstLb : v.first.lb = x.first.lb ∨ v.first.lb = .minusInfinity
  firstUb : v.first.ub = x.first.ub ∨ v.first.ub = .plusInfinity
  secondLb : v.second.lb = x.second.lb ∨ v.second.lb = .minusInfinity
  secondUb : v.second.ub = x.second.ub ∨ v.second.ub = .plusInfinity

theorem Opened.refl {x : DoubleInterval width} (hx : x.isBottom = false) : Opened x x :=
  ⟨hx, .inl rfl, .inl rfl, .inl rfl, .inl rfl⟩

/-- A normalized pair has the ends of its components, or they are all open. -/
theorem interval_ends {first : Interval.Ptr true width} {second : Interval.Ptr false width}
    (hfirst : first.isBottom = false) (hsecond : second.isBottom = false) :
    (DoubleInterval.interval first second = DoubleInterval.top) ∨
      (DoubleInterval.interval first second).first = first ∧
        (DoubleInterval.interval first second).second = second := by
  by_cases htop : first.isTop = true ∨ second.isTop = true
  · left
    apply DoubleInterval.ext_components <;>
      simp [DoubleInterval.interval, DoubleInterval.normalize, DoubleInterval.top, htop] <;> rfl
  · right
    simp only [not_or, Bool.not_eq_true] at htop
    have hnormal : DoubleInterval.normalize first second = (first, second) := by
      simp [DoubleInterval.normalize, htop, hfirst, hsecond]
    exact ⟨congrArg Prod.fst hnormal, congrArg Prod.snd hnormal⟩

theorem Opened.widen (hwidth : 1 < width) {x v : DoubleInterval width} (h : Opened x v)
    (y : DoubleInterval width) : Opened x (v.widen y) := by
  have hv := h.notBottom
  obtain ⟨hvfirst, hvsecond⟩ := DoubleInterval.components_of_not_isBottom hwidth hv
  cases hy : y.isBottom with
  | true => simpa [DoubleInterval.widen, hv, hy] using h
  | false =>
      obtain ⟨hyfirst, hysecond⟩ := DoubleInterval.components_of_not_isBottom hwidth hy
      have hfirst := Interval.widen_isBottom hvfirst hyfirst
      have hsecond := Interval.widen_isBottom hvsecond hysecond
      have hwiden : v.widen y = DoubleInterval.interval (Interval.widen v.first y.first)
          (Interval.widen v.second y.second) := by simp [DoubleInterval.widen, hv, hy]
      rw [hwiden]
      rcases interval_ends hfirst hsecond with htop | ⟨heqFirst, heqSecond⟩
      · rw [htop]
        exact ⟨rfl, .inr rfl, .inr rfl, .inr rfl, .inr rfl⟩
      · refine ⟨(DoubleInterval.interval_spec hfirst hsecond).1, ?_, ?_, ?_, ?_⟩
        · rw [heqFirst, Interval.widen_lb hvfirst hyfirst]
          split
          · exact .inr rfl
          · exact h.firstLb
        · rw [heqFirst, Interval.widen_ub hvfirst hyfirst]
          split
          · exact .inr rfl
          · exact h.firstUb
        · rw [heqSecond, Interval.widen_lb hvsecond hysecond]
          split
          · exact .inr rfl
          · exact h.secondLb
        · rw [heqSecond, Interval.widen_ub hvsecond hysecond]
          split
          · exact .inr rfl
          · exact h.secondUb

/-- Widening is monotone on intervals that differ by opened ends only: an end that is beyond one
of them is beyond the other, or that one's end is open already. -/
theorem widen_mono {sign : Bool} {x a b y z : Interval.Ptr sign width}
    (hbottom : a.isBottom = false) (hybottom : y.isBottom = false)
    (halb : a.lb = x.lb ∨ a.lb = .minusInfinity) (hblb : b.lb = x.lb ∨ b.lb = .minusInfinity)
    (haub : a.ub = x.ub ∨ a.ub = .plusInfinity) (hbub : b.ub = x.ub ∨ b.ub = .plusInfinity)
    (hab : Interval.leq a b = true) (hyz : Interval.leq y z = true) :
    Interval.leq (Interval.widen a y) (Interval.widen b z) = true := by
  have hbbottom := Interval.isBottom_of_leq hab hbottom
  have hzbottom := Interval.isBottom_of_leq hyz hybottom
  rw [Interval.leq_iff hbottom hbbottom] at hab
  rw [Interval.leq_iff hybottom hzbottom] at hyz
  rw [Interval.leq_iff (Interval.widen_isBottom hbottom hybottom)
    (Interval.widen_isBottom hbbottom hzbottom), Interval.widen_lb hbottom hybottom,
    Interval.widen_lb hbbottom hzbottom, Interval.widen_ub hbottom hybottom,
    Interval.widen_ub hbbottom hzbottom]
  constructor
  · split
    · exact bot_le
    · next hz =>
        split
        · next hy =>
            -- `b` keeps an end that `y` passes in `a`, so it is open already
            rcases hblb with hblb | hblb
            · rcases halb with halb | halb
              · rw [halb, ← hblb] at hy
                exact absurd (hyz.1.trans_lt hy) hz
              · rw [halb] at hy
                exact absurd hy not_lt_bot
            · rw [hblb]
        · exact hab.1
  · split
    · next hy =>
        split
        · exact le_rfl
        · next hz =>
            rcases hbub with hbub | hbub
            · rcases haub with haub | haub
              · rw [haub, ← hbub] at hy
                exact absurd (hy.trans_le hyz.2) hz
              · rw [haub] at hy
                exact absurd hy (Bound.rank_le_plusInfinity _).not_gt
            · rw [hbub]
    · split
      · exact Bound.rank_le_plusInfinity _
      · exact hab.2

theorem Opened.widen_mono (hwidth : 1 < width) {x a b y z : DoubleInterval width}
    (ha : Opened x a) (hb : Opened x b) (hab : DoubleInterval.leq a b = true)
    (hyz : DoubleInterval.leq y z = true) :
    DoubleInterval.leq (a.widen y) (b.widen z) = true := by
  cases hy : y.isBottom with
  | true =>
      have hwiden : a.widen y = a := by simp [DoubleInterval.widen, ha.notBottom, hy]
      rw [hwiden]
      exact DoubleInterval.leq_trans hab (DoubleInterval.leq_widen hwidth b z).1
  | false =>
      have hz := DoubleInterval.isBottom_of_leq hyz hy
      obtain ⟨hafirst, hasecond⟩ := DoubleInterval.components_of_not_isBottom hwidth ha.notBottom
      obtain ⟨hyfirst, hysecond⟩ := DoubleInterval.components_of_not_isBottom hwidth hy
      rw [DoubleInterval.leq_iff ha.notBottom hb.notBottom] at hab
      rw [DoubleInterval.leq_iff hy hz] at hyz
      simp only [DoubleInterval.widen, ha.notBottom, hb.notBottom, hy, hz, Bool.false_eq_true,
        if_false]
      exact DoubleInterval.interval_mono (Interval.widen_isBottom hafirst hyfirst)
        (Interval.widen_isBottom hasecond hysecond)
        (PhiNode.widen_mono hafirst hyfirst ha.firstLb hb.firstLb ha.firstUb hb.firstUb hab.1
          hyz.1)
        (PhiNode.widen_mono hasecond hysecond ha.secondLb hb.secondLb ha.secondUb hb.secondUb
          hab.2 hyz.2)

theorem Opened.foldl_mono (hwidth : 1 < width) {x a b : DoubleInterval width}
    {values values' : List (Option (DoubleInterval width))} (ha : Opened x a) (hb : Opened x b)
    (hab : DoubleInterval.leq a b = true) (hvalues : List.Forall₂ Below values values') :
    DoubleInterval.leq ((values.filterMap id).foldl DoubleInterval.widen a)
      ((values'.filterMap id).foldl DoubleInterval.widen b) = true := by
  induction hvalues generalizing a b with
  | nil => exact hab
  | @cons y z values values' hyz _ ih =>
      cases y with
      | none =>
          cases z with
          | none => exact ih ha hb hab
          | some z =>
              exact ih ha (hb.widen hwidth z)
                (DoubleInterval.leq_trans hab (DoubleInterval.leq_widen hwidth b z).1)
      | some y =>
          cases z with
          | none => exact hyz.elim
          | some z =>
              exact ih (ha.widen hwidth y) (hb.widen hwidth z) (ha.widen_mono hwidth hb hab hyz)

theorem Opened.foldl (hwidth : 1 < width) {x a : DoubleInterval width} (ha : Opened x a)
    (values : List (DoubleInterval width)) :
    Opened x (values.foldl DoubleInterval.widen a) := by
  induction values generalizing a with
  | nil => exact ha
  | cons y values ih => exact ih (ha.widen hwidth y)

/-- The number of open ends. -/
def openEnds (v : DoubleInterval width) : Nat :=
  (v.first.lb == .minusInfinity).toNat + (v.first.ub == .plusInfinity).toNat +
    (v.second.lb == .minusInfinity).toNat + (v.second.ub == .plusInfinity).toNat

theorem openEnds_le (v : DoubleInterval width) : openEnds v ≤ 4 := by
  unfold openEnds
  have h1 := (v.first.lb == .minusInfinity).toNat_le
  have h2 := (v.first.ub == .plusInfinity).toNat_le
  have h3 := (v.second.lb == .minusInfinity).toNat_le
  have h4 := (v.second.ub == .plusInfinity).toNat_le
  omega

/-- An end that opens: it is the old end, or it was not open and is now. -/
theorem openEnd_cases {α : Type} [DecidableEq α] {a b x inf : α} (ha : a = x ∨ a = inf)
    (hb : b = x ∨ b = inf) (hstay : a = inf → b = inf) :
    a = b ∨ (a == inf) = false ∧ (b == inf) = true := by
  by_cases hainf : a = inf
  · exact .inl (hainf.trans (hstay hainf).symm)
  · rcases hb with rfl | rfl
    · exact .inl (ha.resolve_right hainf)
    · exact .inr ⟨by simpa using hainf, by simp⟩

theorem eq_minusInfinity_of_leq {sign : Bool} {a b : Interval.Ptr sign width}
    (ha : a.isBottom = false) (h : Interval.leq a b = true) (hinf : a.lb = .minusInfinity) :
    b.lb = .minusInfinity := by
  have hle := ((Interval.leq_iff ha (Interval.isBottom_of_leq h ha)).mp h).1
  rw [hinf] at hle
  cases hb : b.lb <;> simp_all [Bound.rank]

theorem eq_plusInfinity_of_leq {sign : Bool} {a b : Interval.Ptr sign width}
    (ha : a.isBottom = false) (h : Interval.leq a b = true) (hinf : a.ub = .plusInfinity) :
    b.ub = .plusInfinity := by
  have hle := ((Interval.leq_iff ha (Interval.isBottom_of_leq h ha)).mp h).2
  rw [hinf] at hle
  cases hb : b.ub <;> simp_all [Bound.rank]

/-- A change opens an end. -/
theorem Opened.openEnds_lt (hwidth : 1 < width) {x a b : DoubleInterval width} (ha : Opened x a)
    (hb : Opened x b) (hab : DoubleInterval.leq a b = true) :
    openEnds a + (if a.equals b then 0 else 1) ≤ openEnds b := by
  obtain ⟨hafirst, hasecond⟩ := DoubleInterval.components_of_not_isBottom hwidth ha.notBottom
  have hle := (DoubleInterval.leq_iff ha.notBottom hb.notBottom).mp hab
  have hfirstLb := openEnd_cases ha.firstLb hb.firstLb (eq_minusInfinity_of_leq hafirst hle.1)
  have hfirstUb := openEnd_cases ha.firstUb hb.firstUb (eq_plusInfinity_of_leq hafirst hle.1)
  have hsecondLb := openEnd_cases ha.secondLb hb.secondLb (eq_minusInfinity_of_leq hasecond hle.2)
  have hsecondUb := openEnd_cases ha.secondUb hb.secondUb (eq_plusInfinity_of_leq hasecond hle.2)
  have heq : a.first.lb = b.first.lb → a.first.ub = b.first.ub → a.second.lb = b.second.lb →
      a.second.ub = b.second.ub → a.equals b = true := by
    intro h1 h2 h3 h4
    obtain rfl : a = b := DoubleInterval.ext_components (Interval.ext_bounds h1 h2)
      (Interval.ext_bounds h3 h4)
    exact DoubleInterval.equals_refl a
  unfold openEnds
  rcases hfirstLb with h1 | ⟨h1, h1'⟩ <;> rcases hfirstUb with h2 | ⟨h2, h2'⟩ <;>
    rcases hsecondLb with h3 | ⟨h3, h3'⟩ <;> rcases hsecondUb with h4 | ⟨h4, h4'⟩
  · simp [heq h1 h2 h3 h4, h1, h2, h3, h4]
  all_goals
    simp only [*, Bool.toNat_false, Bool.toNat_true]
    split <;> omega

/-- Where every change raises a measure, the measure bounds the changes. -/
theorem changes_le (value : Nat → DoubleInterval width) (measure : DoubleInterval width → Nat)
    (hstep : ∀ i, 0 < i → measure (value i) + (if (value i).equals (value (i + 1)) then 0 else 1) ≤
      measure (value (i + 1))) (n : Nat) :
    changes value (n + 1) ≤ 1 + measure (value (n + 1)) := by
  induction n with
  | zero =>
      simp only [changes]
      split <;> omega
  | succ n ih =>
      have := hstep (n + 1) (Nat.succ_pos n)
      rw [changes]
      omega

/-- The values after the first visit, when the first edge has the value `x`. -/
theorem value_eq_foldl (hwidth : 1 < width) {edges : List Edge} (run : Run (.fixed :: edges) width)
    {x : DoubleInterval width} (hx : ∀ i, run.incoming i 0 = some x) (i : Nat) :
    run.value (i + 1) = (((List.range edges.length).map fun j =>
      run.incoming (i + 1) (j + 1)).filterMap id).foldl DoubleInterval.widen x := by
  have hnext := run.next i
  rw [List.length_cons, List.range_succ_eq_map, List.map_cons, List.map_map, hx] at hnext
  simp only [visitPHINode, List.filterMap_cons, id, List.isEmpty_cons, Bool.false_eq_true,
    if_false, List.foldl_cons, DoubleInterval.bottom_widen hwidth, Option.some.injEq] at hnext
  exact hnext.symm

/-- **A phi stabilises when its first edge keeps its value**, after at most five changes. -/
theorem stabilises_of_fixed (edges : List Edge) : Stabilises (.fixed :: edges) := by
  refine ⟨5, fun width hwidth run n => ?_⟩
  obtain ⟨x, hbottom, hx⟩ := run.fixed 0 rfl
  have hvalue := value_eq_foldl hwidth run hx
  have hopened : ∀ i, Opened x (run.value (i + 1)) := fun i => by
    rw [hvalue]
    exact (Opened.refl hbottom).foldl hwidth _
  have hmono : ∀ i, DoubleInterval.leq (run.value (i + 1)) (run.value (i + 2)) = true := fun i => by
    rw [hvalue, hvalue]
    refine (Opened.refl hbottom).foldl_mono hwidth (Opened.refl hbottom)
      (DoubleInterval.leq_refl x) ?_
    rw [List.forall₂_map_left_iff, List.forall₂_map_right_iff, List.forall₂_same]
    exact fun j _ => run.grows (i + 1) (j + 1)
  cases n with
  | zero => exact Nat.zero_le 5
  | succ n =>
      have hchanges := changes_le run.value openEnds (fun i hi => by
        obtain ⟨i, rfl⟩ := Nat.exists_eq_add_of_le' hi
        exact (hopened i).openEnds_lt hwidth (hopened (i + 1)) (hmono i)) n
      have hle := openEnds_le (run.value (n + 1))
      omega

/-! ## A first edge that grows -/

/-- The numbers from zero to `k`. -/
def upToInterval (sign : Bool) (width k : Nat) : Interval.Ptr sign width :=
  Interval.interval (.finite ⟨BitVec.ofNat width 0⟩) (.finite ⟨BitVec.ofNat width k⟩)

/-- The machine integers from zero to `k`. -/
def upTo (width k : Nat) : DoubleInterval width :=
  DoubleInterval.interval (upToInterval true width k) (upToInterval false width k)

theorem toInt_ofNat {k : Nat} (hk : 2 * k < 2 ^ width) (sign : Bool) :
    (⟨BitVec.ofNat width k⟩ : BitInt sign width).toInt = k := by
  have hmod : k % 2 ^ width = k := Nat.mod_eq_of_lt (by omega)
  cases sign
  · simp [BitInt.toInt, hmod]
  · simp [BitInt.toInt, BitVec.toInt_eq_toNat_cond, hmod, hk]

section

variable {k l : Nat} (hk : 2 * k < 2 ^ width)
include hk

theorem upToInterval_isBottom (sign : Bool) : (upToInterval sign width k).isBottom = false := by
  have hle : (⟨BitVec.ofNat width 0⟩ : BitInt sign width).toInt ≤
      (⟨BitVec.ofNat width k⟩ : BitInt sign width).toInt := by
    rw [toInt_ofNat hk, toInt_ofNat (by omega)]
    exact Int.natCast_nonneg k
  rw [Interval.isBottom_eq_false_iff]
  exact Bound.rank_finite_le_finite.mpr hle

theorem upTo_components : (upTo width k).first = upToInterval true width k ∧
    (upTo width k).second = upToInterval false width k := by
  have hnormal : DoubleInterval.normalize (upToInterval true width k)
      (upToInterval false width k) = (upToInterval true width k, upToInterval false width k) := by
    unfold DoubleInterval.normalize
    rw [upToInterval_isBottom hk, upToInterval_isBottom hk, if_neg, if_neg]
    · simp
    · simp [upToInterval, Interval.interval, Interval.ofBounds]
  exact ⟨congrArg Prod.fst hnormal, congrArg Prod.snd hnormal⟩

theorem upTo_isBottom : (upTo width k).isBottom = false := by
  rw [DoubleInterval.isBottom, (upTo_components hk).1, upToInterval_isBottom hk]
  rfl

theorem upToInterval_leq_iff (hl : 2 * l < 2 ^ width) (sign : Bool) :
    Interval.leq (upToInterval sign width k) (upToInterval sign width l) = true ↔ k ≤ l := by
  rw [Interval.leq_iff (upToInterval_isBottom hk sign) (upToInterval_isBottom hl sign)]
  simp [upToInterval, Interval.interval, toInt_ofNat hk, toInt_ofNat hl]

theorem upTo_leq_iff (hl : 2 * l < 2 ^ width) :
    DoubleInterval.leq (upTo width k) (upTo width l) = true ↔ k ≤ l := by
  rw [DoubleInterval.leq_iff (upTo_isBottom hk) (upTo_isBottom hl), (upTo_components hk).1,
    (upTo_components hk).2, (upTo_components hl).1, (upTo_components hl).2,
    upToInterval_leq_iff hk hl, upToInterval_leq_iff hk hl, and_self]

theorem upTo_equals (hl : 2 * l < 2 ^ width) (hne : k ≠ l) :
    (upTo width k).equals (upTo width l) = false := by
  have hne' : (Bound.finite ⟨BitVec.ofNat width k⟩ : Bound true width) ≠
      .finite ⟨BitVec.ofNat width l⟩ := by
    intro heq
    have htoInt := congrArg BitInt.toInt (Bound.finite.inj heq)
    rw [toInt_ofNat hk, toInt_ofNat hl] at htoInt
    exact hne (by exact_mod_cast htoInt)
  simp [DoubleInterval.equals, upTo_isBottom hk, upTo_isBottom hl, (upTo_components hk).1,
    (upTo_components hl).1, Interval.equals, upToInterval_isBottom hk, upToInterval_isBottom hl]
  simp [upToInterval, Interval.interval, hne']

theorem upToInterval_widen (sign : Bool) :
    Interval.widen (upToInterval sign width k) (upToInterval sign width 0) =
      upToInterval sign width k := by
  have hzero : 2 * 0 < 2 ^ width := by omega
  have hbottom := upToInterval_isBottom hk sign
  have hbottom' := upToInterval_isBottom hzero sign
  apply Interval.ext_bounds
  · rw [Interval.widen_lb hbottom hbottom', if_neg]
    exact lt_irrefl _
  · rw [Interval.widen_ub hbottom hbottom', if_neg]
    simp [upToInterval, Interval.interval, toInt_ofNat hk, toInt_ofNat hzero]

theorem upTo_widen : (upTo width k).widen (upTo width 0) = upTo width k := by
  have hzero : 2 * 0 < 2 ^ width := by omega
  simp only [DoubleInterval.widen, upTo_isBottom hk, upTo_isBottom hzero, Bool.false_eq_true,
    if_false, (upTo_components hk).1, (upTo_components hk).2, (upTo_components hzero).1,
    (upTo_components hzero).2, upToInterval_widen hk]
  rfl

end

theorem foldl_replicate {α : Type} {op : α → α → α} {a b : α} (h : op a b = a) (n : Nat) :
    (List.replicate n b).foldl op a = a := by
  induction n with
  | zero => rfl
  | succ n ih => rw [List.replicate_succ, List.foldl_cons, h, ih]

/-- A visit of a phi whose first edge has the value `a` and whose others have `b`. -/
theorem visit_values (a b : DoubleInterval width) (n : Nat) :
    ((List.range (n + 1)).map fun j => if j = 0 then some a else some b).filterMap id =
      a :: List.replicate n b := by
  rw [List.range_succ_eq_map, List.map_cons, List.map_map]
  simp [Function.comp_def, List.map_const']

/-- The next of the intervals `upTo 0`, …, `upTo M`, as a function of any interval. -/
theorem exists_next {M : Nat} (hM : 2 * M < 2 ^ width) :
    ∃ f : DoubleInterval width → DoubleInterval width, LeqMonotone f ∧
      ∀ i, f (upTo width (min i M)) = upTo width (min (i + 1) M) := by
  classical
  have hleq : ∀ i j, DoubleInterval.leq (upTo width (min i M)) (upTo width (min j M)) = true ↔
      min i M ≤ min j M := fun i j => upTo_leq_iff (by omega) (by omega)
  refine ⟨fun a => if h : ∃ k, DoubleInterval.leq a (upTo width (min k M)) = true then
    upTo width (min (Nat.find h + 1) M) else .top, fun a b hab => ?_, fun i => ?_⟩
  · by_cases hb : ∃ k, DoubleInterval.leq b (upTo width (min k M)) = true
    · have ha : ∃ k, DoubleInterval.leq a (upTo width (min k M)) = true :=
        hb.imp fun k hk => DoubleInterval.leq_trans hab hk
      have hfind : Nat.find ha ≤ Nat.find hb :=
        Nat.find_le (DoubleInterval.leq_trans hab (Nat.find_spec hb))
      simp only [dif_pos ha, dif_pos hb]
      exact (hleq _ _).mpr (by omega)
    · simp only [dif_neg hb]
      exact DoubleInterval.leq_top _
  · have h : ∃ k, DoubleInterval.leq (upTo width (min i M)) (upTo width (min k M)) = true :=
      ⟨i, DoubleInterval.leq_refl _⟩
    have hfind : Nat.find h = min i M := by
      apply le_antisymm
      · exact Nat.find_le ((hleq _ _).mpr (by omega))
      · have := (hleq _ _).mp (Nat.find_spec h)
        omega
    simp only [dif_pos h, hfind]
    congr 1
    omega

/-- A run in which the first edge takes the values `upTo 0`, …, `upTo M`. -/
def growingRun (edge : Edge) (hedge : edge ≠ .fixed) (edges : List Edge) {M : Nat}
    (hwidth : 1 < width) (hM : 2 * M < 2 ^ width) : Run (edge :: edges) width where
  incoming i j := if j = 0 then some (upTo width (min i M)) else some (upTo width 0)
  value i := upTo width (min i M)
  first := by
    simp only [visitPHINode, List.length_cons, visit_values, List.isEmpty_cons,
      Bool.false_eq_true, if_false, List.foldl_cons, DoubleInterval.bottom_join hwidth,
      Nat.zero_min]
    rw [foldl_replicate (DoubleInterval.join_self _)]
  next i := by
    simp only [visitPHINode, List.length_cons, visit_values, List.isEmpty_cons,
      Bool.false_eq_true, if_false, List.foldl_cons, DoubleInterval.bottom_widen hwidth]
    rw [foldl_replicate (upTo_widen (by omega))]
  grows i j := by
    by_cases hj : j = 0
    · simp only [if_pos hj]
      exact (upTo_leq_iff (by omega) (by omega)).mpr (by omega)
    · simp only [if_neg hj]
      exact DoubleInterval.leq_refl _
  fixed j hj := by
    have hne : j ≠ 0 := by
      rintro rfl
      exact hedge (by simpa using hj)
    exact ⟨upTo width 0, upTo_isBottom (by omega), fun i => if_neg hne⟩
  back j hj := by
    by_cases hne : j = 0
    · obtain ⟨f, hf, hnext⟩ := exists_next hM
      exact ⟨f, hf, fun i => by rw [if_pos hne, hnext]⟩
    · exact ⟨fun _ => upTo width 0, fun _ _ _ => DoubleInterval.leq_refl _,
        fun i => if_neg hne⟩

theorem changes_growing {M : Nat} (hM : 2 * M < 2 ^ width) {n : Nat} (hn : n ≤ M) :
    changes (fun i => upTo width (min i M)) n = n := by
  induction n with
  | zero => rfl
  | succ n ih =>
      rw [changes, ih (by omega), upTo_equals (by omega) (by omega) (by omega)]
      rfl

/-- **A phi whose first edge grows does not stabilise**: it may change at every visit. -/
theorem not_stabilises (edge : Edge) (hedge : edge ≠ .fixed) (edges : List Edge) :
    ¬ Stabilises (edge :: edges) := by
  rintro ⟨N, hN⟩
  have hM : 2 * (N + 1) < 2 ^ (N + 3) := by
    have := @Nat.lt_two_pow_self (N + 1)
    rw [show N + 3 = (N + 1) + 2 from rfl, pow_add]
    omega
  have hbound := hN (N + 3) (by omega) (growingRun edge hedge edges (by omega) hM) (N + 1)
  have hchanges := changes_growing hM (le_refl (N + 1))
  have hle : changes (fun i => upTo (N + 3) (min i (N + 1))) (N + 1) ≤ N := hbound
  omega

/-! ## When a phi stabilises -/

/-- Without incoming edges there is no run: the first visit fails its assertion. -/
theorem stabilises_nil : Stabilises [] :=
  ⟨0, fun _ _ run => absurd run.first (by simp [visitPHINode])⟩

/-- **The value of a phi is above the incoming ones**, and it stabilises exactly when its first
edge keeps its value. -/
theorem visitPHINode_stabilises_iff (edges : List Edge) :
    AboveIncoming edges ∧ (Stabilises edges ↔ ∀ edge ∈ edges.head?, edge = .fixed) := by
  refine ⟨aboveIncoming edges, ?_⟩
  cases edges with
  | nil => simp [stabilises_nil]
  | cons edge edges =>
      simp only [List.head?_cons, Option.mem_some_iff, forall_eq']
      constructor
      · intro hstable
        by_contra hedge
        exact not_stabilises edge hedge edges hstable
      · rintro rfl
        exact stabilises_of_fixed edges

/-- The latch of a loop before its entry. -/
theorem latchFirst_unstable : ¬ ∀ edges, AboveIncoming edges ∧ Stabilises edges := fun h =>
  not_stabilises .back (by decide) [.fixed] (h [.back, .fixed]).2

end PhiNode

end Borealis
