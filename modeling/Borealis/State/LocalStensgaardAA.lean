import Borealis.State.PredicateState
import Borealis.Term.Predicate
import Mathlib.Logic.Function.Basic

/-!
# The local alias analysis

`LocalStensgaardAA` over the tokens of a `disjoint_set`: each term has a token, the class of a token
may point to another class, and free memory of one type shares a token.

A token is its position in `children_`, and a set is given by what `getRoot` returns, which path
compression does not change.  The points-to cell is kept per token, not per class: a class is asked
for it through its root, but a stale token keeps the cell it had when it was last written.

The pointers that are dereferenced come from a `PointerCollector` that is never run, so that only
global variables give free memory.
-/

namespace Borealis

/-! ## Disjoint sets -/

/-- `util::disjoint_set`. -/
structure DisjointSet where
  size : ℕ
  root : ℕ → ℕ
  rank : ℕ → ℕ

namespace DisjointSet

/-- No tokens. -/
def empty : DisjointSet := ⟨0, id, fun _ => 0⟩

variable (D : DisjointSet)

/-- `emplace`. -/
def emplace : ℕ × DisjointSet := (D.size, { D with size := D.size + 1 })

/-- `find`. -/
def find (needle : Option ℕ) : Option ℕ := needle.map D.root

/-- `set_parent` of a root. -/
def setParent (child parent : ℕ) : DisjointSet :=
  { D with root := fun t => if D.root t = child then parent else D.root t }

/-- `unite`. -/
def unite (left right : ℕ) : ℕ × DisjointSet :=
  let lRoot := D.root left
  let rRoot := D.root right
  if lRoot = rRoot then (lRoot, D)
  else if D.rank lRoot < D.rank rRoot then (rRoot, D.setParent lRoot rRoot)
  else if D.rank rRoot < D.rank lRoot then (lRoot, D.setParent rRoot lRoot)
  else (lRoot, { D.setParent rRoot lRoot with
    rank := Function.update D.rank lRoot (D.rank lRoot + 1) })

/-- Roots are their own roots, and the tokens are closed under `getRoot`. -/
structure WellFormed (D : DisjointSet) : Prop where
  root_root : ∀ t, D.root (D.root t) = D.root t
  root_lt : ∀ t, t < D.size → D.root t < D.size
  root_unused : ∀ t, D.size ≤ t → D.root t = t

variable {D}

theorem wellFormed_empty : empty.WellFormed :=
  ⟨fun _ => rfl, fun _ h => absurd h (Nat.not_lt_zero _), fun _ _ => rfl⟩

theorem WellFormed.emplace (h : D.WellFormed) : D.emplace.2.WellFormed where
  root_root := h.root_root
  root_lt := fun t ht => by
    rcases Nat.lt_or_ge t D.size with hlt | hge
    · exact Nat.lt_succ_of_lt (h.root_lt t hlt)
    · show D.root t < D.size + 1
      rw [h.root_unused t hge]
      exact ht
  root_unused := fun t ht => h.root_unused t (Nat.le_of_succ_le ht)

theorem WellFormed.setParent (h : D.WellFormed) {child parent : ℕ} (hchild : child < D.size)
    (hparent : parent < D.size) (hroot : D.root parent = parent) :
    (D.setParent child parent).WellFormed where
  root_root := fun t => by
    simp only [DisjointSet.setParent]
    split_ifs with h₁ h₂ h₃
    · rfl
    · exact hroot
    · exact absurd ((h.root_root t).symm.trans h₃) h₁
    · exact h.root_root t
  root_lt := fun t ht => by
    simp only [DisjointSet.setParent]
    split_ifs
    · exact hparent
    · exact h.root_lt t ht
  root_unused := fun t ht => by
    simp only [DisjointSet.setParent]
    have hsize : D.size ≤ t := ht
    have hself := h.root_unused t hsize
    rw [if_neg (by omega), hself]

theorem unite_size (left right : ℕ) : (D.unite left right).2.size = D.size := by
  unfold unite
  dsimp only
  split_ifs <;> rfl

theorem WellFormed.unite (h : D.WellFormed) {left right : ℕ} (hleft : left < D.size)
    (hright : right < D.size) :
    (D.unite left right).2.WellFormed ∧ (D.unite left right).1 < D.size := by
  have hl := h.root_lt left hleft
  have hr := h.root_lt right hright
  unfold DisjointSet.unite
  dsimp only
  split_ifs
  · exact ⟨h, hl⟩
  · exact ⟨h.setParent hl hr (h.root_root right), hr⟩
  · exact ⟨h.setParent hr hl (h.root_root left), hl⟩
  · have hset := h.setParent hr hl (h.root_root left)
    exact ⟨⟨hset.root_root, hset.root_lt, hset.root_unused⟩, hl⟩

end DisjointSet

/-! ## The analysis -/

/-- `WeirdTermEquals`: constants are compared by identity. -/
def Term.weirdEquals (lhv rhv : Term) : Bool :=
  if lhv.isConstantTerm && rhv.isConstantTerm then lhv.obj == rhv.obj else lhv.equals rhv

theorem Term.weirdEquals_refl (t : Term) : t.weirdEquals t = true := by
  unfold weirdEquals
  split_ifs
  · exact beq_self_eq_true _
  · exact t.equals_refl

/-- The members of `LocalStensgaardAA`.  `dereferenced` is the collection of `PC`. -/
structure LocalStensgaardAA where
  dereferenced : List Term := []
  relatedPtrs : DisjointSet := .empty
  view : List (Term × ℕ) := []
  pointsTo : ℕ → Option ℕ := fun _ => none
  noalias : List Term := []
  nonFreeTerms : List Term := []
  freeSpaces : Option Ty → Option ℕ := fun _ => none

namespace LocalStensgaardAA

variable (A : LocalStensgaardAA)

/-- `quasi`. -/
def quasi : ℕ × LocalStensgaardAA :=
  (A.relatedPtrs.emplace.1, { A with relatedPtrs := A.relatedPtrs.emplace.2 })

/-- `pointsTo[key] = cell`. -/
def setPointsTo (key : ℕ) (cell : Option ℕ) : LocalStensgaardAA :=
  { A with pointsTo := Function.update A.pointsTo key cell }

/-- `join`, up to the assignment of the result to the two references; the keys of the three cells
that are written are read before the first of them is.  A step whose two cells differ and that
unites nothing is followed by one that unites, so that twice as many steps as there are tokens
suffice. -/
def join : ℕ → Option ℕ → Option ℕ → LocalStensgaardAA → ℕ × LocalStensgaardAA
  | fuel, some l, some r, A =>
    let pl := A.relatedPtrs.find (A.pointsTo l)
    let pr := A.relatedPtrs.find (A.pointsTo r)
    let united := A.relatedPtrs.unite l r
    let A := { A with relatedPtrs := united.2 }
    let A := ((A.setPointsTo united.1 pl).setPointsTo r pl).setPointsTo l pl
    match fuel with
    | 0 => (united.1, A)
    | fuel + 1 => if pl = pr then (united.1, A) else (united.1, (join fuel pl pr A).2)
  | _, some l, none, A | _, none, some l, A =>
    let res := A.relatedPtrs.root l
    let pres := A.relatedPtrs.find (A.pointsTo l)
    (res, (A.setPointsTo l pres).setPointsTo res pres)
  | _, none, none, A => A.quasi

/-- The steps that `join` may take. -/
def joinFuel : ℕ := 2 * A.relatedPtrs.size + 2

/-- `join(pointsTo[a], pointsTo[b])`. -/
def joinCells (a b : ℕ) : LocalStensgaardAA :=
  let r := join A.joinFuel (A.pointsTo a) (A.pointsTo b) A
  (r.2.setPointsTo b r.1).setPointsTo a r.1

/-- `join(pointsTo[a], token)`. -/
def joinCell (a token : ℕ) : LocalStensgaardAA :=
  let r := join A.joinFuel (A.pointsTo a) (some token) A
  r.2.setPointsTo a r.1

/-- `join(freeSpaces[type], token)`, which also assigns the token. -/
def joinFree (type : Option Ty) (token : ℕ) : ℕ × LocalStensgaardAA :=
  let r := join A.joinFuel (A.freeSpaces type) (some token) A
  (r.1, { r.2 with freeSpaces := Function.update r.2.freeSpaces type (some r.1) })

/-- `join(freeSpaces[type], pointsTo[token])`. -/
def joinFreeCell (type : Option Ty) (token : ℕ) : LocalStensgaardAA :=
  let r := join A.joinFuel (A.freeSpaces type) (A.pointsTo token) A
  { r.2.setPointsTo token (some r.1) with
    freeSpaces := Function.update r.2.freeSpaces type (some r.1) }

/-- `util::at(view, t)`. -/
def tokenOf (t : Term) : Option ℕ := (A.view.find? fun entry => entry.1.weirdEquals t).map Prod.snd

/-- A variable that is global. -/
def isGlobal (t : Term) : Bool :=
  match t.cls with
  | .value global => global
  | _ => false

/-- A term gets a token. -/
def emplaceTerm (t : Term) : ℕ × LocalStensgaardAA :=
  (A.relatedPtrs.size,
    { A with
      relatedPtrs := A.relatedPtrs.emplace.2
      view := A.view ++ [(t, A.relatedPtrs.size)] })

/-- `get`. -/
def get (t : Term) : ℕ × LocalStensgaardAA :=
  match A.tokenOf t with
  | some token => (A.relatedPtrs.root token, A)
  | none =>
    let token := (A.emplaceTerm t).1
    let A := (A.emplaceTerm t).2
    if isGlobal t then
      let A := { A with
        nonFreeTerms := Term.insert A.nonFreeTerms t
        noalias := Term.insert A.noalias t }
      -- a global is not free, but what it points to is
      (token, A.joinFreeCell t.getType.getPointerElementType token)
    else if !Term.contains A.nonFreeTerms t && t.isNamedTerm && Term.contains A.dereferenced t then
      A.joinFree (some t.getType) token
    else (token, A)

/-- `getDereferenced`. -/
def getDereferenced (t : Term) : Option ℕ × LocalStensgaardAA :=
  let r := A.get t
  (r.2.relatedPtrs.find (r.2.pointsTo r.1), r.2)

/-! ### Terms and predicates -/

/-- `auto ts = get(t); auto bases = get(base); join(pointsTo[bases], pointsTo[ts])`. -/
def sameCell (t base : Term) : LocalStensgaardAA :=
  let ts := A.get t
  let bases := ts.2.get base
  bases.2.joinCells bases.1 ts.1

/-- The cells of two terms join the cell of a third. -/
def sameCells (t lhv rhv : Term) : LocalStensgaardAA :=
  let ts := A.get t
  let lhs := ts.2.get lhv
  let rhs := lhs.2.get rhv
  (rhs.2.joinCells ts.1 lhs.1).joinCells ts.1 rhs.1

/-- The method of the class. -/
def transformTermClass (t : Term) : LocalStensgaardAA :=
  match t.cls, t.getSubterms with
  | .load, [rhv] =>
    let ts := A.get t
    let loads := ts.2.get rhv
    loads.2.joinCell loads.1 ts.1
  | .gep _, base :: _ | .cast _, [base] | .unary _, [base] | .axiomTerm, [_, base] =>
    A.sameCell t base
  | .ternary, [_, lhv, rhv] | .binary _, [lhv, rhv] => A.sameCells t lhv rhv
  | _, _ => A

/-- `transform` of a term: the subterms come first. -/
def transformTerm (t : Term) : LocalStensgaardAA := t.collected.foldl transformTermClass A

/-- `transformAllocaPredicate` and `transformMallocPredicate`. -/
def transformAllocation (lhv : Term) : LocalStensgaardAA :=
  let A := { A with
    noalias := Term.insert A.noalias lhv
    nonFreeTerms := Term.insert A.nonFreeTerms lhv }
  let ls := A.get lhv
  let q := ls.2.quasi
  q.2.setPointsTo ls.1 q.1

/-- The method of the predicate. -/
def transformPredicateClass : Predicate → LocalStensgaardAA
  | .equality type lhv rhv =>
    let A :=
      if lhv.isNamedTerm && (type == .state || type == .invariant) then
        { A with nonFreeTerms := Term.insert A.nonFreeTerms lhv }
      else A
    let ls := A.get lhv
    let rs := ls.2.get rhv
    rs.2.joinCells ls.1 rs.1
  | .alloca _ lhv _ _ | .malloc _ lhv _ _ => A.transformAllocation lhv
  | .store _ lhv rhv =>
    let ls := A.get lhv
    let rs := ls.2.get rhv
    rs.2.joinCell ls.1 rs.1
  | _ => A

/-- `transform` of a predicate: its terms come first. -/
def transformPredicate (p : Predicate) : LocalStensgaardAA :=
  (p.getOperands.foldl transformTerm A).transformPredicateClass p

end LocalStensgaardAA

/-- `aa.transform(space)`. -/
def LocalStensgaardAA.transform (space : PredicateState Predicate) : LocalStensgaardAA :=
  space.preds.foldl transformPredicate {}

/-! ## Well-formed states -/

namespace LocalStensgaardAA

/-- All tokens exist, and the collection of pointers is empty. -/
structure WellFormed (A : LocalStensgaardAA) : Prop where
  sets : A.relatedPtrs.WellFormed
  dereferenced : A.dereferenced = []
  view_lt : ∀ entry ∈ A.view, entry.2 < A.relatedPtrs.size
  pointsTo_lt : ∀ t c, A.pointsTo t = some c → c < A.relatedPtrs.size
  pointsTo_unused : ∀ t, A.relatedPtrs.size ≤ t → A.pointsTo t = none
  freeSpaces_lt : ∀ type c, A.freeSpaces type = some c → c < A.relatedPtrs.size

/-- A step to a well-formed state that keeps all tokens. -/
structure Grows (A A' : LocalStensgaardAA) : Prop where
  wellFormed : A'.WellFormed
  size_le : A.relatedPtrs.size ≤ A'.relatedPtrs.size

variable {A A' A'' : LocalStensgaardAA}

theorem WellFormed.grows (h : A.WellFormed) : A.Grows A := ⟨h, Nat.le_refl _⟩

theorem WellFormed.find_lt (h : A.WellFormed) {t c : ℕ}
    (hc : A.relatedPtrs.find (A.pointsTo t) = some c) : c < A.relatedPtrs.size := by
  obtain ⟨c', hc', rfl⟩ := Option.map_eq_some_iff.1 hc
  exact h.sets.root_lt c' (h.pointsTo_lt t c' hc')

theorem WellFormed.quasi (h : A.WellFormed) :
    A.Grows A.quasi.2 ∧ A.quasi.1 < A.quasi.2.relatedPtrs.size :=
  ⟨⟨⟨h.sets.emplace, h.dereferenced, fun e he => Nat.lt_succ_of_lt (h.view_lt e he),
    fun t c hc => Nat.lt_succ_of_lt (h.pointsTo_lt t c hc),
    fun t ht => h.pointsTo_unused t (Nat.le_of_succ_le ht),
    fun type c hc => Nat.lt_succ_of_lt (h.freeSpaces_lt type c hc)⟩, Nat.le_succ _⟩,
    Nat.lt_succ_self _⟩

theorem WellFormed.setPointsTo (h : A.WellFormed) {key : ℕ} {cell : Option ℕ}
    (hkey : key < A.relatedPtrs.size) (hcell : ∀ c, cell = some c → c < A.relatedPtrs.size) : (A.setPointsTo key cell).WellFormed where
  sets := h.sets
  dereferenced := h.dereferenced
  view_lt := h.view_lt
  freeSpaces_lt := h.freeSpaces_lt
  pointsTo_lt := fun t c hc => by
    change Function.update A.pointsTo key cell t = some c at hc
    by_cases ht : t = key
    · subst ht
      rw [Function.update_self] at hc
      exact hcell c hc
    · rw [Function.update_of_ne ht] at hc
      exact h.pointsTo_lt t c hc
  pointsTo_unused := fun t ht => by
    change Function.update A.pointsTo key cell t = none
    rw [Function.update_of_ne (Nat.ne_of_gt (Nat.lt_of_lt_of_le hkey ht))]
    exact h.pointsTo_unused t ht

theorem WellFormed.setFreeSpace (h : A.WellFormed) (type : Option Ty) {token : ℕ}
    (htoken : token < A.relatedPtrs.size) :
    ({ A with freeSpaces := Function.update A.freeSpaces type (some token) } :
      LocalStensgaardAA).WellFormed where
  sets := h.sets
  dereferenced := h.dereferenced
  view_lt := h.view_lt
  pointsTo_lt := h.pointsTo_lt
  pointsTo_unused := h.pointsTo_unused
  freeSpaces_lt := fun type' c hc => by
    change Function.update A.freeSpaces type (some token) type' = some c at hc
    by_cases htype : type' = type
    · subst htype
      rw [Function.update_self] at hc
      exact Option.some.inj hc ▸ htoken
    · rw [Function.update_of_ne htype] at hc
      exact h.freeSpaces_lt type' c hc

theorem WellFormed.withUnited (h : A.WellFormed) {l r : ℕ} (hl : l < A.relatedPtrs.size)
    (hr : r < A.relatedPtrs.size) :
    ({ A with relatedPtrs := (A.relatedPtrs.unite l r).2 } : LocalStensgaardAA).WellFormed := by
  have hsize := A.relatedPtrs.unite_size l r
  refine ⟨(h.sets.unite hl hr).1, h.dereferenced, ?_, ?_, ?_, ?_⟩
  · exact fun e he => hsize ▸ h.view_lt e he
  · exact fun t c hc => hsize ▸ h.pointsTo_lt t c hc
  · exact fun t ht => h.pointsTo_unused t (hsize ▸ ht)
  · exact fun type c hc => hsize ▸ h.freeSpaces_lt type c hc

/-- The cell of one set is renewed. -/
theorem WellFormed.renewed (h : A.WellFormed) {l : ℕ} (hl : l < A.relatedPtrs.size) :
    ((A.setPointsTo l (A.relatedPtrs.find (A.pointsTo l))).setPointsTo (A.relatedPtrs.root l)
      (A.relatedPtrs.find (A.pointsTo l))).WellFormed :=
  (h.setPointsTo hl fun _ hc => h.find_lt hc).setPointsTo (h.sets.root_lt l hl)
    fun _ hc => h.find_lt hc

/-- Two sets are united, and all three cells are that of the left set. -/
theorem WellFormed.unitedCells (h : A.WellFormed) {l r : ℕ} (hl : l < A.relatedPtrs.size)
    (hr : r < A.relatedPtrs.size) :
    (((({ A with relatedPtrs := (A.relatedPtrs.unite l r).2 } :
      LocalStensgaardAA).setPointsTo (A.relatedPtrs.unite l r).1
        (A.relatedPtrs.find (A.pointsTo l))).setPointsTo r
        (A.relatedPtrs.find (A.pointsTo l))).setPointsTo l
        (A.relatedPtrs.find (A.pointsTo l))).WellFormed := by
  have hsize := A.relatedPtrs.unite_size l r
  have hbound : ∀ c, A.relatedPtrs.find (A.pointsTo l) = some c →
      c < (A.relatedPtrs.unite l r).2.size := fun c hc => hsize ▸ h.find_lt hc
  have hres : (A.relatedPtrs.unite l r).1 < (A.relatedPtrs.unite l r).2.size :=
    hsize.symm ▸ (h.sets.unite hl hr).2
  exact (((h.withUnited hl hr).setPointsTo hres hbound).setPointsTo (hsize.symm ▸ hr)
    hbound).setPointsTo (hsize.symm ▸ hl) hbound

/-- With one of the two sets missing nothing is united. -/
theorem WellFormed.join_of_none (h : A.WellFormed) {left right : Option ℕ} (fuel : ℕ)
    (hleft : ∀ l, left = some l → l < A.relatedPtrs.size)
    (hright : ∀ r, right = some r → r < A.relatedPtrs.size) (hnone : left = none ∨ right = none) :
    A.Grows (join fuel left right A).2 ∧
      (join fuel left right A).1 < (join fuel left right A).2.relatedPtrs.size := by
  rcases left with - | l <;> rcases right with - | r
  · cases fuel <;> exact h.quasi
  · have hr := hright r rfl
    cases fuel <;> exact ⟨⟨h.renewed hr, Nat.le_refl _⟩, h.sets.root_lt r hr⟩
  · have hl := hleft l rfl
    cases fuel <;> exact ⟨⟨h.renewed hl, Nat.le_refl _⟩, h.sets.root_lt l hl⟩
  · simp at hnone

/-- **`join` keeps well-formedness**, and its result is a token. -/
theorem WellFormed.join {left right : Option ℕ} (h : A.WellFormed) (fuel : ℕ)
    (hleft : ∀ l, left = some l → l < A.relatedPtrs.size)
    (hright : ∀ r, right = some r → r < A.relatedPtrs.size) :
    A.Grows (join fuel left right A).2 ∧
      (join fuel left right A).1 < (join fuel left right A).2.relatedPtrs.size := by
  induction fuel generalizing A left right with
  | zero =>
      rcases left with - | l <;> rcases right with - | r
      · exact h.join_of_none 0 hleft hright (Or.inl rfl)
      · exact h.join_of_none 0 hleft hright (Or.inl rfl)
      · exact h.join_of_none 0 hleft hright (Or.inr rfl)
      · have hsize := A.relatedPtrs.unite_size l r
        exact ⟨⟨h.unitedCells (hleft l rfl) (hright r rfl), Nat.le_of_eq hsize.symm⟩,
          hsize.symm ▸ (h.sets.unite (hleft l rfl) (hright r rfl)).2⟩
  | succ fuel ih =>
      rcases left with - | l <;> rcases right with - | r
      · exact h.join_of_none _ hleft hright (Or.inl rfl)
      · exact h.join_of_none _ hleft hright (Or.inl rfl)
      · exact h.join_of_none _ hleft hright (Or.inr rfl)
      · have hsize := A.relatedPtrs.unite_size l r
        have hset := h.unitedCells (hleft l rfl) (hright r rfl)
        have hres : (A.relatedPtrs.unite l r).1 < (A.relatedPtrs.unite l r).2.size :=
          hsize.symm ▸ (h.sets.unite (hleft l rfl) (hright r rfl)).2
        rw [LocalStensgaardAA.join]
        split_ifs with heq
        · exact ⟨⟨hset, Nat.le_of_eq hsize.symm⟩, hres⟩
        · obtain ⟨hgrows, -⟩ := ih hset (fun c hc => hsize ▸ h.find_lt hc)
            (fun c hc => hsize ▸ h.find_lt hc)
          exact ⟨⟨hgrows.wellFormed, Nat.le_trans (Nat.le_of_eq hsize.symm) hgrows.size_le⟩,
            Nat.lt_of_lt_of_le hres hgrows.size_le⟩

/-! ### The operations -/

theorem WellFormed.joinCells (h : A.WellFormed) {a b : ℕ} (ha : a < A.relatedPtrs.size)
    (hb : b < A.relatedPtrs.size) : A.Grows (A.joinCells a b) := by
  obtain ⟨hgrows, hres⟩ := h.join A.joinFuel (h.pointsTo_lt a) (h.pointsTo_lt b)
  have hle := hgrows.size_le
  exact ⟨(hgrows.wellFormed.setPointsTo (Nat.lt_of_lt_of_le hb hle) fun c hc =>
    Option.some.inj hc ▸ hres).setPointsTo (Nat.lt_of_lt_of_le ha hle) fun c hc =>
    Option.some.inj hc ▸ hres, hle⟩

theorem WellFormed.joinCell (h : A.WellFormed) {a token : ℕ} (ha : a < A.relatedPtrs.size)
    (htoken : token < A.relatedPtrs.size) : A.Grows (A.joinCell a token) := by
  obtain ⟨hgrows, hres⟩ := h.join A.joinFuel (h.pointsTo_lt a)
    (fun r hr => Option.some.inj hr ▸ htoken)
  have hle := hgrows.size_le
  exact ⟨hgrows.wellFormed.setPointsTo (Nat.lt_of_lt_of_le ha hle) fun c hc =>
    Option.some.inj hc ▸ hres, hle⟩

theorem WellFormed.joinFreeCell (h : A.WellFormed) (type : Option Ty) {token : ℕ}
    (htoken : token < A.relatedPtrs.size) : A.Grows (A.joinFreeCell type token) := by
  obtain ⟨hgrows, hres⟩ := h.join A.joinFuel (h.freeSpaces_lt type)
    (h.pointsTo_lt token)
  have hle := hgrows.size_le
  have hset := hgrows.wellFormed.setPointsTo (Nat.lt_of_lt_of_le htoken hle) fun c hc =>
    Option.some.inj hc ▸ hres
  exact ⟨hset.setFreeSpace type hres, hle⟩

theorem WellFormed.emplaceTerm (h : A.WellFormed) (t : Term) :
    A.Grows (A.emplaceTerm t).2 := by
  refine ⟨⟨h.sets.emplace, h.dereferenced, fun e he => ?_,
    fun t c hc => Nat.lt_succ_of_lt (h.pointsTo_lt t c hc),
    fun t ht => h.pointsTo_unused t (Nat.le_of_succ_le ht),
    fun type c hc => Nat.lt_succ_of_lt (h.freeSpaces_lt type c hc)⟩, Nat.le_succ _⟩
  rcases List.mem_append.1 he with hmem | hnew
  · exact Nat.lt_succ_of_lt (h.view_lt e hmem)
  · obtain rfl := List.mem_singleton.1 hnew
    exact Nat.lt_succ_self _

/-- Which terms are not free, and which do not alias, is no matter. -/
theorem WellFormed.withTerms (h : A.WellFormed) (nonFreeTerms noalias : List Term) :
    ({ A with nonFreeTerms := nonFreeTerms, noalias := noalias } :
      LocalStensgaardAA).WellFormed :=
  ⟨h.sets, h.dereferenced, h.view_lt, h.pointsTo_lt, h.pointsTo_unused, h.freeSpaces_lt⟩

theorem WellFormed.tokenOf_lt (h : A.WellFormed) {t : Term} {token : ℕ}
    (htoken : A.tokenOf t = some token) : token < A.relatedPtrs.size := by
  obtain ⟨entry, hfind, rfl⟩ := Option.map_eq_some_iff.1 htoken
  exact h.view_lt entry (List.mem_of_find?_eq_some hfind)

/-- `get` of a term that is not global and has no token only gives it one: as no pointer is
collected, it is not joined with the free memory of its type. -/
theorem get_of_not_isGlobal (h : A.dereferenced = []) {t : Term} (hnew : A.tokenOf t = none)
    (hglobal : isGlobal t = false) : A.get t = A.emplaceTerm t := by
  have hempty : Term.contains A.dereferenced t = false := by rw [h]; rfl
  simp [get, hnew, hglobal, emplaceTerm, hempty]

theorem get_of_isGlobal {t : Term} (hnew : A.tokenOf t = none) (hglobal : isGlobal t = true) :
    A.get t = (A.relatedPtrs.size,
      ({ (A.emplaceTerm t).2 with
        nonFreeTerms := Term.insert A.nonFreeTerms t
        noalias := Term.insert A.noalias t } : LocalStensgaardAA).joinFreeCell
          t.getType.getPointerElementType A.relatedPtrs.size) := by
  simp [get, hnew, hglobal, emplaceTerm]

theorem get_of_seen {t : Term} {token : ℕ} (hseen : A.tokenOf t = some token) :
    A.get t = (A.relatedPtrs.root token, A) := by
  simp [get, hseen]

theorem WellFormed.get (h : A.WellFormed) (t : Term) :
    A.Grows (A.get t).2 ∧ (A.get t).1 < (A.get t).2.relatedPtrs.size := by
  have hnew := h.emplaceTerm t
  have hlt : A.relatedPtrs.size < (A.emplaceTerm t).2.relatedPtrs.size := Nat.lt_succ_self _
  rcases htoken : A.tokenOf t with - | token
  · cases hglobal : isGlobal t
    · rw [get_of_not_isGlobal h.dereferenced htoken hglobal]
      exact ⟨hnew, hlt⟩
    · rw [get_of_isGlobal htoken hglobal]
      have hjoin := (hnew.wellFormed.withTerms (Term.insert A.nonFreeTerms t)
        (Term.insert A.noalias t)).joinFreeCell t.getType.getPointerElementType hlt
      exact ⟨⟨hjoin.wellFormed, Nat.le_trans hnew.size_le hjoin.size_le⟩,
        Nat.lt_of_lt_of_le hlt hjoin.size_le⟩
  · rw [get_of_seen htoken]
    exact ⟨h.grows, h.sets.root_lt token (h.tokenOf_lt htoken)⟩

/-- Both tokens exist once the second term has got its own. -/
theorem WellFormed.getBoth (h : A.WellFormed) (t u : Term) :
    ((A.get t).2.get u).2.WellFormed ∧
      (A.get t).1 < ((A.get t).2.get u).2.relatedPtrs.size ∧
      ((A.get t).2.get u).1 < ((A.get t).2.get u).2.relatedPtrs.size := by
  obtain ⟨hts, hlt⟩ := h.get t
  obtain ⟨hus, hlu⟩ := hts.wellFormed.get u
  exact ⟨hus.wellFormed, Nat.lt_of_lt_of_le hlt hus.size_le, hlu⟩

theorem WellFormed.sameCell (h : A.WellFormed) (t base : Term) :
    (A.sameCell t base).WellFormed := by
  obtain ⟨hboth, hlt, hlb⟩ := h.getBoth t base
  exact (hboth.joinCells hlb hlt).wellFormed

theorem WellFormed.sameCells (h : A.WellFormed) (t lhv rhv : Term) :
    (A.sameCells t lhv rhv).WellFormed := by
  obtain ⟨hboth, hlt, hll⟩ := h.getBoth t lhv
  obtain ⟨hrhs, hlr⟩ := hboth.get rhv
  have hfirst := hrhs.wellFormed.joinCells (Nat.lt_of_lt_of_le hlt hrhs.size_le)
    (Nat.lt_of_lt_of_le hll hrhs.size_le)
  exact (hfirst.wellFormed.joinCells
    (Nat.lt_of_lt_of_le hlt (Nat.le_trans hrhs.size_le hfirst.size_le))
    (Nat.lt_of_lt_of_le hlr hfirst.size_le)).wellFormed

theorem WellFormed.transformTermClass (h : A.WellFormed) (t : Term) :
    (A.transformTermClass t).WellFormed := by
  unfold LocalStensgaardAA.transformTermClass
  split
  · obtain ⟨hboth, hlt, hll⟩ := h.getBoth t ‹Term›
    exact (hboth.joinCell hll hlt).wellFormed
  · exact h.sameCell _ _
  · exact h.sameCell _ _
  · exact h.sameCell _ _
  · exact h.sameCell _ _
  · exact h.sameCells _ _ _
  · exact h.sameCells _ _ _
  · exact h

theorem WellFormed.foldl {α : Type} {step : LocalStensgaardAA → α → LocalStensgaardAA}
    (hstep : ∀ (A : LocalStensgaardAA) a, A.WellFormed → (step A a).WellFormed) (h : A.WellFormed)
    (l : List α) : (l.foldl step A).WellFormed := by
  induction l generalizing A with
  | nil => exact h
  | cons a l ih => exact ih (hstep A a h)

theorem WellFormed.transformTerm (h : A.WellFormed) (t : Term) : (A.transformTerm t).WellFormed :=
  h.foldl (fun _ t h => h.transformTermClass t) t.collected

theorem WellFormed.transformAllocation (h : A.WellFormed) (lhv : Term) :
    (A.transformAllocation lhv).WellFormed := by
  obtain ⟨hls, hlt⟩ := (h.withTerms (Term.insert A.nonFreeTerms lhv)
    (Term.insert A.noalias lhv)).get lhv
  obtain ⟨hq, hltq⟩ := hls.wellFormed.quasi
  exact hq.wellFormed.setPointsTo (Nat.lt_of_lt_of_le hlt hq.size_le)
    fun c hc => Option.some.inj hc ▸ hltq

theorem WellFormed.transformPredicateClass (h : A.WellFormed) (p : Predicate) :
    (A.transformPredicateClass p).WellFormed := by
  cases p with
  | equality type lhv rhv =>
      have hstart : (if lhv.isNamedTerm && (type == .state || type == .invariant) then
          { A with nonFreeTerms := Term.insert A.nonFreeTerms lhv } else A).WellFormed := by
        split_ifs
        · exact h.withTerms _ A.noalias
        · exact h
      obtain ⟨hboth, hll, hlr⟩ := hstart.getBoth lhv rhv
      exact (hboth.joinCells hll hlr).wellFormed
  | alloca type lhv _ _ => exact h.transformAllocation lhv
  | malloc type lhv _ _ => exact h.transformAllocation lhv
  | store type lhv rhv =>
      obtain ⟨hboth, hll, hlr⟩ := h.getBoth lhv rhv
      exact (hboth.joinCell hll hlr).wellFormed
  | _ => exact h

theorem WellFormed.transformPredicate (h : A.WellFormed) (p : Predicate) :
    (A.transformPredicate p).WellFormed :=
  (h.foldl (fun _ t h => h.transformTerm t) p.getOperands).transformPredicateClass p

theorem wellFormed_empty : ({} : LocalStensgaardAA).WellFormed where
  sets := DisjointSet.wellFormed_empty
  dereferenced := rfl
  view_lt := fun _ h => absurd h List.not_mem_nil
  pointsTo_lt := fun _ _ h => nomatch h
  pointsTo_unused := fun _ _ => rfl
  freeSpaces_lt := fun _ _ h => nomatch h

/-- **Every analysis of a predicate state is well-formed.** -/
theorem wellFormed_transform (space : PredicateState Predicate) : (transform space).WellFormed :=
  wellFormed_empty.foldl (fun _ p h => h.transformPredicate p) space.preds

end LocalStensgaardAA

end Borealis
