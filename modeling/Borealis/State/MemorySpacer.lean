import Borealis.State.LocalStensgaardAA

/-!
# Memory spaces

`MemorySpacer` numbers the cells of `LocalStensgaardAA`: the number of a pointer is that of the root
of its cell, and zero where there is none.  Only queries are left once the predicate state has been
analysed, and they unite nothing, as no pointer is ever collected.

A query still writes cells when it meets a global variable for the first time: `join` renews the
cell of the recorded free space, and where the recorded token is no longer a root, the cell of its
class is overwritten by the one the token had when it was last written.  Pointers into that class are
then given another number.

## Strategy

A query that keeps all cells keeps every number that was given; numbers are given to roots once and
in increasing order, so that they tell the cells apart.
-/

namespace Borealis

/-- The members of `MemorySpacer`. -/
structure MemorySpacer where
  aa : LocalStensgaardAA
  indices : ℕ → Option ℕ := fun _ => none
  currentIndex : ℕ := 1

namespace MemorySpacer

variable (S : MemorySpacer)

/-- `getIndex`. -/
def getIndex (token : Option ℕ) : ℕ × MemorySpacer :=
  match token with
  | none => (0, S)
  | some token =>
    match S.indices token with
    | some ix => (ix, S)
    | none => (S.currentIndex,
        { S with
          indices := Function.update S.indices token (some S.currentIndex)
          currentIndex := S.currentIndex + 1 })

/-- `getMemspace`. -/
def getMemspace (t : Term) : ℕ × MemorySpacer :=
  ({ S with aa := (S.aa.getDereferenced t).2 } : MemorySpacer).getIndex (S.aa.getDereferenced t).1

/-- The constructor. -/
def ofState (space : PredicateState Predicate) : MemorySpacer :=
  { aa := LocalStensgaardAA.transform space }

/-- The numbers that a sequence of pointers is given, and what is left of the spacer. -/
def run : MemorySpacer → List Term → List (Term × ℕ) × MemorySpacer
  | S, [] => ([], S)
  | S, t :: ts => ((t, (S.getMemspace t).1) :: (run (S.getMemspace t).2 ts).1,
      (run (S.getMemspace t).2 ts).2)

/-- The query is for a term that has a token, for one that is not global, or for a global variable
whose free space, if there is one, is recorded with the cell of its class. -/
def Renewed (t : Term) : Prop :=
  (S.aa.tokenOf t).isSome ∨ LocalStensgaardAA.isGlobal t = false ∨
    ∀ l, S.aa.freeSpaces t.getType.getPointerElementType = some l →
      S.aa.relatedPtrs.find (S.aa.pointsTo l) =
        S.aa.relatedPtrs.find (S.aa.pointsTo (S.aa.relatedPtrs.root l))

/-- All queries of a run are of this kind. -/
def RunRenewed : MemorySpacer → List Term → Prop
  | _, [] => True
  | S, t :: ts => S.Renewed t ∧ RunRenewed (S.getMemspace t).2 ts

end MemorySpacer

/-! ## Queries keep the cells -/

namespace LocalStensgaardAA

/-- The points-to cell of the class of a token. -/
def cell (A : LocalStensgaardAA) (token : ℕ) : Option ℕ :=
  A.relatedPtrs.find (A.pointsTo (A.relatedPtrs.root token))

/-- A step that keeps the tokens of all terms and the cells of all tokens. -/
structure Keeps (A A' : LocalStensgaardAA) : Prop where
  grows : A.Grows A'
  tokenOf : ∀ t token, A.tokenOf t = some token → A'.tokenOf t = some token
  cell : ∀ token, token < A.relatedPtrs.size → A'.cell token = A.cell token

variable {A A' A'' : LocalStensgaardAA}

theorem WellFormed.keeps (h : A.WellFormed) : A.Keeps A := ⟨h.grows, fun _ _ h => h, fun _ _ => rfl⟩

theorem tokenOf_emplaceTerm (t u : Term) :
    (A.emplaceTerm t).2.tokenOf u = (A.tokenOf u).or
      (if t.weirdEquals u then some A.relatedPtrs.size else none) := by
  unfold tokenOf emplaceTerm
  rw [List.find?_append]
  generalize A.view.find? (fun entry => entry.1.weirdEquals u) = found
  rcases found with - | entry
  · cases h : t.weirdEquals u <;> simp [h]
  · rfl

theorem WellFormed.keeps_emplaceTerm (h : A.WellFormed) (t : Term) :
    A.Keeps (A.emplaceTerm t).2 where
  grows := h.emplaceTerm t
  tokenOf := fun u token hu => by rw [tokenOf_emplaceTerm, hu, Option.some_or]
  cell := fun _ _ => rfl

theorem WellFormed.root_size (h : A.WellFormed) :
    A.relatedPtrs.root A.relatedPtrs.size = A.relatedPtrs.size :=
  h.sets.root_unused _ (Nat.le_refl _)

/-- A new token is alone in its class. -/
theorem WellFormed.root_alone (h : A.WellFormed) (t : ℕ)
    (ht : A.relatedPtrs.root t = A.relatedPtrs.size) : t = A.relatedPtrs.size := by
  rcases Nat.lt_or_ge t A.relatedPtrs.size with hlt | hge
  · exact absurd ht (Nat.ne_of_lt (h.sets.root_lt t hlt))
  · exact (h.sets.root_unused t hge).symm.trans ht

/-- **The first query of a global variable**: where the free space of its type is recorded with the
cell of its class, all cells are kept. -/
theorem WellFormed.keeps_joinFreeCell (h : A.WellFormed) (type : Option Ty) (token : ℕ)
    (htoken : token < A.relatedPtrs.size) (halone : ∀ t, A.relatedPtrs.root t = token → t = token)
    (hnone : A.pointsTo token = none)
    (hfree : ∀ l, A.freeSpaces type = some l →
      A.relatedPtrs.find (A.pointsTo l) =
        A.relatedPtrs.find (A.pointsTo (A.relatedPtrs.root l))) :
    A.Grows (A.joinFreeCell type token) ∧ (A.joinFreeCell type token).view = A.view ∧
      (A.joinFreeCell type token).relatedPtrs.root = A.relatedPtrs.root ∧
      ∀ t, t < A.relatedPtrs.size → t ≠ token → (A.joinFreeCell type token).cell t = A.cell t := by
  refine ⟨h.joinFreeCell type htoken, ?_, ?_, fun t ht hne => ?_⟩
  · unfold LocalStensgaardAA.joinFreeCell
    rw [hnone]
    rcases A.freeSpaces type with - | l <;> rfl
  · unfold LocalStensgaardAA.joinFreeCell
    rw [hnone]
    rcases A.freeSpaces type with - | l <;> rfl
  · have hroot : A.relatedPtrs.root t ≠ token := fun heq => hne (halone t heq)
    unfold LocalStensgaardAA.joinFreeCell
    rw [hnone]
    rcases hl : A.freeSpaces type with - | l
    · -- a fresh free space: only the cell of the new token is written
      show A.relatedPtrs.find (Function.update A.pointsTo token _ (A.relatedPtrs.root t)) = _
      rw [Function.update_of_ne hroot]
      rfl
    · have hrenew := hfree l hl
      show A.relatedPtrs.find (Function.update (Function.update (Function.update A.pointsTo l
        (A.relatedPtrs.find (A.pointsTo l))) (A.relatedPtrs.root l)
        (A.relatedPtrs.find (A.pointsTo l))) token _ (A.relatedPtrs.root t)) = A.cell t
      have hidem : ∀ c : Option ℕ, A.relatedPtrs.find (A.relatedPtrs.find c) =
          A.relatedPtrs.find c := fun c => by
        cases c with
        | none => rfl
        | some c => exact congrArg some (h.sets.root_root c)
      rw [Function.update_of_ne hroot]
      by_cases hres : A.relatedPtrs.root t = A.relatedPtrs.root l
      · rw [hres, Function.update_self, hidem, hrenew, cell, hres]
      · rw [Function.update_of_ne hres]
        by_cases hself : A.relatedPtrs.root t = l
        · exact absurd ((h.sets.root_root t).symm.trans (congrArg A.relatedPtrs.root hself)) hres
        · rw [Function.update_of_ne hself]
          rfl

/-- **A query keeps all cells**, and the term that is asked for has a token. -/
theorem WellFormed.keeps_get (h : A.WellFormed) {t : Term}
    (hrenewed : (A.tokenOf t).isSome ∨ isGlobal t = false ∨
      ∀ l, A.freeSpaces t.getType.getPointerElementType = some l →
        A.relatedPtrs.find (A.pointsTo l) =
          A.relatedPtrs.find (A.pointsTo (A.relatedPtrs.root l))) :
    A.Keeps (A.get t).2 ∧ ∃ token, (A.get t).2.tokenOf t = some token ∧
      (A.get t).2.relatedPtrs.root token = (A.get t).1 := by
  rcases htoken : A.tokenOf t with - | token
  · have hnew := h.keeps_emplaceTerm t
    have hnewToken : (A.emplaceTerm t).2.tokenOf t = some A.relatedPtrs.size := by
      rw [tokenOf_emplaceTerm, htoken, Term.weirdEquals_refl]
      rfl
    cases hglobal : isGlobal t
    · rw [get_of_not_isGlobal h.dereferenced htoken hglobal]
      exact ⟨hnew, _, hnewToken, h.root_size⟩
    · rw [get_of_isGlobal htoken hglobal]
      set A₁ : LocalStensgaardAA := { (A.emplaceTerm t).2 with
        nonFreeTerms := Term.insert A.nonFreeTerms t
        noalias := Term.insert A.noalias t } with hA₁
      have hwf : A₁.WellFormed := hnew.grows.wellFormed.withTerms _ _
      have hfree := hrenewed.resolve_left (by simp [htoken]) |>.resolve_left (by simp [hglobal])
      obtain ⟨hgrows, hview, hroot, hcell⟩ := hwf.keeps_joinFreeCell
        t.getType.getPointerElementType A.relatedPtrs.size (Nat.lt_succ_self _) h.root_alone
        (h.pointsTo_unused _ (Nat.le_refl _)) hfree
      have htokens : ∀ u, (A₁.joinFreeCell t.getType.getPointerElementType
          A.relatedPtrs.size).tokenOf u = (A.emplaceTerm t).2.tokenOf u := fun u => by
        rw [tokenOf, hview]
        rfl
      have hkeeps : A.Keeps (A₁.joinFreeCell t.getType.getPointerElementType
          A.relatedPtrs.size) := {
        grows := ⟨hgrows.wellFormed, Nat.le_trans hnew.grows.size_le hgrows.size_le⟩
        tokenOf := fun u token hu => (htokens u).trans (hnew.tokenOf u token hu)
        cell := fun token ht =>
          (hcell token (Nat.lt_succ_of_lt ht) (Nat.ne_of_lt ht)).trans (hnew.cell token ht) }
      exact ⟨hkeeps, _, (htokens t).trans hnewToken, (congrFun hroot _).trans h.root_size⟩
  · rw [get_of_seen htoken]
    exact ⟨h.keeps, token, htoken, rfl⟩

theorem WellFormed.keeps_getDereferenced (h : A.WellFormed) {t : Term}
    (hrenewed : (A.tokenOf t).isSome ∨ isGlobal t = false ∨
      ∀ l, A.freeSpaces t.getType.getPointerElementType = some l →
        A.relatedPtrs.find (A.pointsTo l) =
          A.relatedPtrs.find (A.pointsTo (A.relatedPtrs.root l))) :
    A.Keeps (A.getDereferenced t).2 ∧ ∃ token, (A.getDereferenced t).2.tokenOf t = some token ∧
      (A.getDereferenced t).2.cell token = (A.getDereferenced t).1 := by
  obtain ⟨hkeeps, token, htoken, hroot⟩ := h.keeps_get hrenewed
  refine ⟨hkeeps, token, htoken, ?_⟩
  show (A.get t).2.cell token = _
  rw [cell, hroot]
  rfl

/-- A term that has a token is asked for its cell. -/
theorem getDereferenced_of_seen {t : Term} {token : ℕ} (hseen : A.tokenOf t = some token) :
    A.getDereferenced t = (A.cell token, A) := by
  rw [getDereferenced, get_of_seen hseen]
  rfl

end LocalStensgaardAA

/-! ## Numbers of cells -/

namespace MemorySpacer

variable {S S' : MemorySpacer}

/-- The number of a cell. -/
def numberOf (S : MemorySpacer) : Option ℕ → Option ℕ
  | none => some 0
  | some token => S.indices token

/-- Each root has a number of its own, and numbers are given in order. -/
structure Numbered (S : MemorySpacer) : Prop where
  aa : S.aa.WellFormed
  pos : 1 ≤ S.currentIndex
  bounds : ∀ token ix, S.indices token = some ix → 1 ≤ ix ∧ ix < S.currentIndex
  injective : ∀ token token' ix, S.indices token = some ix → S.indices token' = some ix →
    token = token'

/-- The term has a token, and the number of its cell is `number`. -/
def Given (S : MemorySpacer) (t : Term) (number : ℕ) : Prop :=
  ∃ token, S.aa.tokenOf t = some token ∧ S.numberOf (S.aa.cell token) = some number

theorem Numbered.numberOf_inj (h : S.Numbered) {c c' : Option ℕ} {number : ℕ}
    (hc : S.numberOf c = some number) (hc' : S.numberOf c' = some number) : c = c' := by
  have hpos : ∀ token, S.numberOf (some token) = some number → number ≠ 0 := fun token ht =>
    Nat.one_le_iff_ne_zero.1 (h.bounds token number ht).1
  cases c with
  | none =>
      obtain rfl : 0 = number := Option.some.inj hc
      cases c' with
      | none => rfl
      | some token' => exact absurd rfl (hpos token' hc')
  | some token =>
      cases c' with
      | none =>
          obtain rfl : 0 = number := Option.some.inj hc'
          exact absurd rfl (hpos token hc)
      | some token' => exact congrArg some (h.injective token token' number hc hc')

theorem getIndex_of_some {token ix : ℕ} (h : S.indices token = some ix) :
    S.getIndex (some token) = (ix, S) := by
  simp [MemorySpacer.getIndex, h]

theorem getIndex_of_none {token : ℕ} (h : S.indices token = none) :
    S.getIndex (some token) = (S.currentIndex,
      { S with
        indices := Function.update S.indices token (some S.currentIndex)
        currentIndex := S.currentIndex + 1 }) := by
  simp [MemorySpacer.getIndex, h]

/-- `getIndex` numbers its cell and keeps the numbers that were given. -/
theorem Numbered.getIndex (h : S.Numbered) (token : Option ℕ) :
    (S.getIndex token).2.Numbered ∧ (S.getIndex token).2.aa = S.aa ∧
      (S.getIndex token).2.numberOf token = some (S.getIndex token).1 ∧
      ∀ c number, S.numberOf c = some number → (S.getIndex token).2.numberOf c = some number := by
  rcases token with - | token
  · exact ⟨h, rfl, rfl, fun _ _ h => h⟩
  rcases hindex : S.indices token with - | ix
  · rw [getIndex_of_none hindex]
    refine ⟨⟨h.aa, Nat.le_succ_of_le h.pos, fun t ix ht => ?_, fun t t' ix ht ht' => ?_⟩, rfl,
      Function.update_self _ _ _, fun c number hc => ?_⟩
    · simp only [Function.update_apply] at ht
      split_ifs at ht with heq
      · obtain rfl := Option.some.inj ht
        exact ⟨h.pos, Nat.lt_succ_self _⟩
      · exact ⟨(h.bounds t ix ht).1, Nat.lt_succ_of_lt (h.bounds t ix ht).2⟩
    · simp only [Function.update_apply] at ht ht'
      split_ifs at ht ht' with heq heq' heq'
      · exact heq.trans heq'.symm
      · -- the new number is larger than all others
        obtain rfl := Option.some.inj ht
        exact absurd (h.bounds t' _ ht').2 (Nat.lt_irrefl _)
      · obtain rfl := Option.some.inj ht'
        exact absurd (h.bounds t _ ht).2 (Nat.lt_irrefl _)
      · exact h.injective t t' ix ht ht'
    · cases c with
      | none => exact hc
      | some t =>
          have hne : t ≠ token := fun heq => by
            rw [heq] at hc
            exact absurd (hindex.symm.trans hc) (by simp)
          exact (Function.update_of_ne hne _ _).trans hc
  · rw [getIndex_of_some hindex]
    exact ⟨h, rfl, hindex, fun _ _ h => h⟩

/-- **One query**: the invariant is kept, the term is given the number that is returned, and no
number that was given changes. -/
theorem Numbered.getMemspace (h : S.Numbered) {t : Term} (hrenewed : S.Renewed t) :
    (S.getMemspace t).2.Numbered ∧ (S.getMemspace t).2.Given t (S.getMemspace t).1 ∧
      ∀ u number, S.Given u number → (S.getMemspace t).2.Given u number := by
  obtain ⟨hkeeps, token, htoken, hcell⟩ := h.aa.keeps_getDereferenced hrenewed
  have hnumbered : ({ S with aa := (S.aa.getDereferenced t).2 } : MemorySpacer).Numbered :=
    ⟨hkeeps.grows.wellFormed, h.pos, h.bounds, h.injective⟩
  obtain ⟨hafter, haa, hnumber, hold⟩ := hnumbered.getIndex (S.aa.getDereferenced t).1
  refine ⟨hafter, ⟨token, ?_, ?_⟩, ?_⟩
  · exact (congrArg (·.tokenOf t) haa).trans htoken
  · show (S.getMemspace t).2.numberOf ((S.getMemspace t).2.aa.cell token) = _
    rw [show (S.getMemspace t).2.aa = (S.aa.getDereferenced t).2 from haa, hcell]
    exact hnumber
  · rintro u number ⟨seen, hseen, hgiven⟩
    refine ⟨seen, (congrArg (·.tokenOf u) haa).trans (hkeeps.tokenOf u seen hseen), ?_⟩
    rw [show (S.getMemspace t).2.aa = (S.aa.getDereferenced t).2 from haa,
      hkeeps.cell seen (h.aa.tokenOf_lt hseen)]
    exact hold _ number hgiven

/-- **A run of queries** keeps the invariant, all numbers that were given before, and those that it
gives. -/
theorem Numbered.run (h : S.Numbered) {ts : List Term} (hrenewed : S.RunRenewed ts) :
    (S.run ts).2.Numbered ∧ (∀ t number, (t, number) ∈ (S.run ts).1 → (S.run ts).2.Given t number) ∧
      ∀ u number, S.Given u number → (S.run ts).2.Given u number := by
  induction ts generalizing S with
  | nil => exact ⟨h, fun _ _ h => absurd h List.not_mem_nil, fun _ _ h => h⟩
  | cons t ts ih =>
      obtain ⟨hnext, hgiven, hkept⟩ := h.getMemspace hrenewed.1
      obtain ⟨hlast, hall, hrest⟩ := ih hnext hrenewed.2
      refine ⟨hlast, fun u number hmem => ?_, fun u number hu => hrest u number (hkept u number hu)⟩
      rcases List.mem_cons.1 hmem with heq | hmem
      · obtain ⟨rfl, rfl⟩ := Prod.mk.inj heq
        exact hrest u _ hgiven
      · exact hall u number hmem

theorem numbered_ofState (space : PredicateState Predicate) : (ofState space).Numbered where
  aa := LocalStensgaardAA.wellFormed_transform space
  pos := Nat.le_refl 1
  bounds := fun _ _ h => nomatch h
  injective := fun _ _ _ h => nomatch h

/-- **Numbers tell the cells apart**: in a run from any predicate state whose queries all find the
free space of a new global variable renewed, two terms have been given the same number exactly when
their cells are the same at the end, a term with no cell has been given zero, and no term has been
given two numbers. -/
theorem run_numbers (space : PredicateState Predicate) (ts : List Term)
    (hrenewed : (ofState space).RunRenewed ts) :
    let trace := (ofState space).run ts
    (∀ t m u k, (t, m) ∈ trace.1 → (u, k) ∈ trace.1 →
      ((trace.2.aa.getDereferenced t).1 = (trace.2.aa.getDereferenced u).1 ↔ m = k)) ∧
    (∀ t m, (t, m) ∈ trace.1 → ((trace.2.aa.getDereferenced t).1 = none ↔ m = 0)) ∧
    ∀ t m k, (t, m) ∈ trace.1 → (t, k) ∈ trace.1 → m = k := by
  obtain ⟨hlast, hgiven, -⟩ := (numbered_ofState space).run hrenewed
  have hcell : ∀ t m, (t, m) ∈ ((ofState space).run ts).1 →
      ((ofState space).run ts).2.numberOf
        (((ofState space).run ts).2.aa.getDereferenced t).1 = some m := by
    intro t m hmem
    obtain ⟨token, htoken, hnumber⟩ := hgiven t m hmem
    rw [LocalStensgaardAA.getDereferenced_of_seen htoken]
    exact hnumber
  have hsame : ∀ t m u k, (t, m) ∈ ((ofState space).run ts).1 →
      (u, k) ∈ ((ofState space).run ts).1 →
      ((((ofState space).run ts).2.aa.getDereferenced t).1 =
        (((ofState space).run ts).2.aa.getDereferenced u).1 ↔ m = k) := by
    intro t m u k ht hu
    constructor
    · intro heq
      have hm := hcell t m ht
      rw [heq] at hm
      exact Option.some.inj (hm.symm.trans (hcell u k hu))
    · rintro rfl
      exact hlast.numberOf_inj (hcell t m ht) (hcell u m hu)
  refine ⟨hsame, fun t m ht => ⟨fun hnone => ?_, ?_⟩, fun t m k ht hk => (hsame t m t k ht hk).1 rfl⟩
  · have hm := hcell t m ht
    rw [hnone] at hm
    exact (Option.some.inj hm).symm
  · rintro rfl
    exact hlast.numberOf_inj (hcell t 0 ht) rfl

/-! ### A free space that is not renewed -/

/-- A pointer to a cell of a signed 32-bit integer. -/
def intPtr : Ty := .pointer (.integer 32 .signed) 0

/-- A variable that holds the address of such a pointer. -/
def cellVariable (obj : ℕ) (global : Bool) (name : String) : Term :=
  .mk obj (.value global) (.pointer intPtr 0) name []

/-- `*r` for a local variable `r`. -/
def loadedPointer : Term := .mk 3 .load intPtr "*(r)" [cellVariable 2 false "r"]

/-- After `p = alloca`, the variable `r` is `p` on one path and the global `g` on the other, and
something is stored through the pointer in its cell. -/
def joinedFreeSpace : PredicateState Predicate :=
  let one := .mk 0 (.opaqueIntConstant 1) (.integer 64 .unsigned) "1" []
  let p := cellVariable 1 false "p"
  let r := cellVariable 2 false "r"
  .chain (.chain (.basic [.alloca .state p one one])
      (.choice [.basic [.equality .state r p],
        .basic [.equality .state r (cellVariable 4 true "g")]]))
    (.basic [.store .state loadedPointer (.mk 5 (.argument 0 .any) (.integer 32 .signed) "y" [])])

/-- Asked for a global of another type in between, the loaded pointer keeps its number. -/
theorem run_numbers_joinedFreeSpace :
    let g : Term := .mk 6 (.value true) intPtr "h" []
    let trace := (ofState joinedFreeSpace).run [loadedPointer, g, loadedPointer]
    trace.1.map Prod.snd = [1, 2, 1] ∧
      ∀ t m k, (t, m) ∈ trace.1 → (t, k) ∈ trace.1 → m = k := by
  intro g trace
  have hrenewed : (ofState joinedFreeSpace).RunRenewed [loadedPointer, g, loadedPointer] := by
    refine ⟨Or.inl (by decide), Or.inr (Or.inr fun l hl => ?_), Or.inl (by decide), trivial⟩
    -- there is no free memory of integers yet
    exact nomatch hl
  exact ⟨by decide, (run_numbers joinedFreeSpace _ hrenewed).2.2⟩

/-- **A pointer with two numbers**: the query for another global of the type of `g` loses the cell
of what `r` points to. -/
theorem loaded_pointer_renumbered :
    ¬ ∀ (space : PredicateState Predicate) (ts : List Term),
      let trace := (ofState space).run ts
      (∀ t m u k, (t, m) ∈ trace.1 → (u, k) ∈ trace.1 →
        ((trace.2.aa.getDereferenced t).1 = (trace.2.aa.getDereferenced u).1 ↔ m = k)) ∧
      (∀ t m, (t, m) ∈ trace.1 → ((trace.2.aa.getDereferenced t).1 = none ↔ m = 0)) ∧
      ∀ t m k, (t, m) ∈ trace.1 → (t, k) ∈ trace.1 → m = k := by
  intro hclaim
  have htwice := (hclaim joinedFreeSpace
    [loadedPointer, cellVariable 6 true "h", loadedPointer]).2.2 loadedPointer _ _
      List.mem_cons_self (List.mem_cons_of_mem _ (List.mem_cons_of_mem _ List.mem_cons_self))
  -- the first number is one, the last is zero
  exact absurd htwice (by decide)

end MemorySpacer

end Borealis
