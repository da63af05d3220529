import Borealis.Lib.Descent
import Borealis.Reanimator.ArrayBounds
import Borealis.Term.GepShift
import Mathlib.Data.Fintype.Pi
import Mathlib.Data.Fintype.Option
import Mathlib.Data.Finite.Prod

/-!
# Raising a counterexample

`RaisingTypeVisitor` walks from a value along its type and the memory of the model.  A pointer is
followed to each index recorded for its value, an array to its elements and a record to its fields;
what lies at an address is read from the model.  The visitor does not remember where it has been, so
a pointer that leads back to where it was read is followed for ever, and so is an array whose length
exceeds the 32-bit counter of the loop.

`terminates_iff` says that nothing else goes wrong: there are finitely many addresses, values and
types to be visited, so a walk that never comes back ends.
-/

namespace Borealis

namespace Reanimator

open GepTerm Lib

/-! ## Types -/

/-- `Type`.  What a pointer points to is a number in a table of types, since a record may hold
pointers to itself. -/
inductive RaisedType (n : ℕ) where
  | bool
  | integer
  | float
  | unknownType
  | typeError
  | function
  | pointer (pointed : Fin n)
  | array (element : RaisedType n) (size : Option ℕ)
  | record (fields : List (RaisedType n))

variable {n : ℕ}

mutual
/-- The type as its size is computed. -/
def RaisedType.layout : RaisedType n → GepTerm.Layout
  | .array element size => .array element.layout size
  | .record fields => .record (fieldLayouts fields)
  | _ => .elem

/-- The fields of a record, as their sizes are computed. -/
def fieldLayouts : List (RaisedType n) → List GepTerm.Layout
  | [] => []
  | field :: fields => field.layout :: fieldLayouts fields
end

/-- `TypeUtils::getTypeSizeInElems`. -/
def getTypeSizeInElems (t : RaisedType n) : BitVec 64 :=
  BitVec.ofNat 64 t.layout.getTypeSizeInElems

/-- `TypeUtils::getStructOffsetInElems`. -/
def getStructOffsetInElems (fields : List (RaisedType n)) (idx : ℕ) : BitVec 64 :=
  BitVec.ofNat 64 (GepTerm.getStructOffsetInElems (fieldLayouts fields) idx)

/-! ## The visitor -/

/-- `MemoryObject`. -/
inductive MemoryObject (n : ℕ) where
  | mk (type : RaisedType n) (value : Option (BitVec 64)) (size : BitVec 64)
      (nested : List (BitVec 64 × MemoryObject n))

/-- What a visitor works with: the types pointers point to, the integer that the model holds at an
address, and the recorded indices. -/
structure Raising (n : ℕ) where
  getPointed : Fin n → RaisedType n
  query : BitVec 64 → Option (BitVec 64)
  arrayBoundsMap : ArrayBoundsMap

/-- The recursive call of a visitor. -/
abbrev Visit (n : ℕ) := RaisedType n → BitVec 64 → Option (BitVec 64) → Option (MemoryObject n)

/-- `visitPointer`. -/
def visitPointer (r : Raising n) (visit : Visit n) (pointed : Fin n) (value : Option (BitVec 64)) :
    Option (MemoryObject n) :=
  let pType := r.getPointed pointed
  let pSize := getTypeSizeInElems pType
  match value with
  | some base =>
    ((getArrayBounds r.arrayBoundsMap base).mapM fun shift =>
      let offset := base + BitVec.ofInt 64 shift * pSize
      (visit pType offset (r.query offset)).map fun nested => (BitVec.ofInt 64 shift, nested)).map
    fun nested =>
      .mk (.pointer pointed) (some base)
        (BitVec.ofInt 64 (getArraySize r.arrayBoundsMap base) * pSize) nested
  | none => some (.mk (.pointer pointed) none pSize [])

/-- `visitRecord`. -/
def visitRecord (r : Raising n) (visit : Visit n) (fields : List (RaisedType n))
    (addr : BitVec 64) : Option (MemoryObject n) :=
  (fields.zipIdx.mapM fun indexedField =>
    let sf := addr + getStructOffsetInElems fields indexedField.2
    (visit indexedField.1 sf (r.query sf)).map fun nested =>
      (BitVec.ofNat 64 indexedField.2, nested)).map
  fun nested => .mk (.record fields) none (getTypeSizeInElems (.record fields)) nested

/-- The loop of `visitArray`: the counter is an `unsigned`. -/
def arrayLoop {α : Type} (body : BitVec 32 → Option α) (arraySize : ℕ) :
    ℕ → BitVec 32 → Option (List α)
  | 0, _ => none
  | fuel + 1, i =>
    if i.toNat < arraySize then
      (body i).bind fun nested =>
        (arrayLoop body arraySize fuel (i + 1)).map fun rest => nested :: rest
    else some []

/-- `visitArray`. -/
def visitArray (r : Raising n) (visit : Visit n) (fuel : ℕ) (elemType : RaisedType n)
    (size : Option ℕ) (addr : BitVec 64) : Option (MemoryObject n) :=
  let elemSize := getTypeSizeInElems elemType
  match size with
  | some arraySize =>
    (arrayLoop (fun i =>
      let off := addr + i.setWidth 64 * elemSize
      (visit elemType off (r.query off)).map fun nested => (i.setWidth 64, nested))
      arraySize fuel 0).map
    fun nested =>
      .mk (.array elemType size) none (BitVec.ofNat 64 arraySize * elemSize) nested
  | none => some (.mk (.array elemType none) none elemSize [])

/-- `RaisingTypeVisitor::visit`. -/
def visit (r : Raising n) : ℕ → Visit n
  | 0, _, _, _ => none
  | fuel + 1, theType, addr, value =>
    match theType with
    | .bool | .integer | .float => some (.mk theType value 1 [])
    | .pointer pointed => visitPointer r (visit r fuel) pointed value
    | .record fields => visitRecord r (visit r fuel) fields addr
    | .array elemType size => visitArray r (visit r fuel) fuel elemType size addr
    | .unknownType | .typeError | .function => some (.mk theType none 1 [])

/-- What a visit is asked for. -/
structure Node (n : ℕ) where
  theType : RaisedType n
  addr : BitVec 64
  value : Option (BitVec 64)

/-- **The visit of a node comes to an end.** -/
def Terminates (r : Raising n) (node : Node n) : Prop :=
  ∃ fuel object, visit r fuel node.theType node.addr node.value = some object

/-! ## What is visited next -/

/-- The value of a type at an address. -/
def Raising.node (r : Raising n) (theType : RaisedType n) (addr : BitVec 64) : Node n :=
  ⟨theType, addr, r.query addr⟩

/-- The nodes that the visit of a node visits. -/
def children (r : Raising n) (node : Node n) : List (Node n) :=
  match node.theType, node.value with
  | .pointer pointed, some base =>
    (getArrayBounds r.arrayBoundsMap base).map fun shift =>
      r.node (r.getPointed pointed)
        (base + BitVec.ofInt 64 shift * getTypeSizeInElems (r.getPointed pointed))
  | .record fields, _ =>
    fields.zipIdx.map fun indexedField =>
      r.node indexedField.1 (node.addr + getStructOffsetInElems fields indexedField.2)
  | .array elemType (some arraySize), _ =>
    (List.range (min arraySize (2 ^ 32))).map fun i =>
      r.node elemType (node.addr + BitVec.ofNat 64 i * getTypeSizeInElems elemType)
  | _, _ => []

/-- The length of an array that is longer than the counter of its loop. -/
def TooLong (node : Node n) : Prop :=
  ∃ elemType arraySize, node.theType = .array elemType (some arraySize) ∧ 2 ^ 32 ≤ arraySize

/-- The loop over an array gets by with the fuel. -/
def Ready (fuel : ℕ) (node : Node n) : Prop :=
  ∀ elemType arraySize, node.theType = .array elemType (some arraySize) →
    arraySize < 2 ^ 32 ∧ arraySize < fuel

theorem exists_ready_iff (node : Node n) : (∃ fuel, Ready fuel node) ↔ ¬ TooLong node := by
  constructor
  · rintro ⟨fuel, hready⟩ ⟨elemType, arraySize, htype, hlong⟩
    have := (hready elemType arraySize htype).1
    omega
  · intro hshort
    have hlt : ∀ elemType arraySize, node.theType = .array elemType (some arraySize) →
        arraySize < 2 ^ 32 := fun elemType arraySize htype =>
      Nat.lt_of_not_le fun hlong => hshort ⟨elemType, arraySize, htype, hlong⟩
    exact ⟨2 ^ 32, fun elemType arraySize htype =>
      ⟨hlt elemType arraySize htype, hlt elemType arraySize htype⟩⟩

/-- A loop over a list comes to an end when its body does. -/
theorem isSome_mapM {α β : Type} (f : α → Option β) (l : List α) :
    (l.mapM f).isSome ↔ ∀ a ∈ l, (f a).isSome := by
  induction l with
  | nil => simp
  | cons a l ih =>
      rw [List.mapM_cons, List.forall_mem_cons, ← ih]
      cases f a <;> cases l.mapM f <;> simp

theorem isSome_bind_map {α β γ : Type} (a : Option α) (b : Option β) (f : α → β → γ) :
    (a.bind fun x => b.map (f x)).isSome ↔ a.isSome ∧ b.isSome := by
  cases a <;> cases b <;> simp

/-- The loop over an array comes to an end when its counter can reach the length. -/
theorem isSome_arrayLoop_iff {α : Type} (body : BitVec 32 → Option α) (arraySize fuel : ℕ)
    (i : BitVec 32) (hi : i.toNat ≤ arraySize) :
    (arrayLoop body arraySize fuel i).isSome ↔
      (arraySize < 2 ^ 32 ∧ arraySize - i.toNat < fuel) ∧
        ∀ j < min arraySize (2 ^ 32), i.toNat ≤ j → (body (BitVec.ofNat 32 j)).isSome := by
  induction fuel generalizing i with
  | zero => simp [arrayLoop]
  | succ fuel ih =>
      have hlt := i.isLt
      rw [arrayLoop]
      split
      · next hmore =>
        rw [isSome_bind_map]
        have hbody : body i = body (BitVec.ofNat 32 i.toNat) := by
          rw [BitVec.ofNat_toNat, BitVec.setWidth_eq]
        have hnext : (i + 1).toNat = (i.toNat + 1) % 2 ^ 32 := BitVec.toNat_add i 1
        have hrest := ih (i + 1) (by omega)
        by_cases hlong : 2 ^ 32 ≤ arraySize
        · -- the counter never gets there
          rw [hrest]
          exact iff_of_false (fun h => by omega) fun h => by omega
        · have hstep : (i + 1).toNat = i.toNat + 1 := by omega
          rw [hrest, hstep, hbody]
          constructor
          · rintro ⟨hhere, ⟨-, hfuel⟩, hrest⟩
            refine ⟨⟨by omega, by omega⟩, fun j hj hij => ?_⟩
            rcases Nat.eq_or_lt_of_le hij with rfl | hij
            · exact hhere
            · exact hrest j hj hij
          · rintro ⟨⟨hshort, hfuel⟩, hall⟩
            refine ⟨hall _ (by omega) (Nat.le_refl _), ⟨hshort, by omega⟩, fun j hj hij => ?_⟩
            exact hall j hj (by omega)
      · next hdone =>
        refine iff_of_true rfl ⟨⟨by omega, by omega⟩, fun j hj hij => ?_⟩
        exact absurd hij (by omega)

/-- The counter of a loop as an address. -/
theorem setWidth_ofNat {i : ℕ} (h : i < 2 ^ 32) :
    (BitVec.ofNat 32 i).setWidth 64 = BitVec.ofNat 64 i := by
  apply BitVec.eq_of_toNat_eq
  rw [BitVec.toNat_setWidth, BitVec.toNat_ofNat, BitVec.toNat_ofNat]
  omega

/-- A visit has come to an end with so much fuel. -/
def Done (r : Raising n) (fuel : ℕ) (node : Node n) : Prop :=
  (visit r fuel node.theType node.addr node.value).isSome

theorem terminates_iff_done {r : Raising n} {node : Node n} :
    Terminates r node ↔ ∃ fuel, Done r fuel node := by
  simp only [Terminates, Done, Option.isSome_iff_exists]

/-- **What one level of a visit needs**: the visits of the children. -/
theorem done_succ_iff (r : Raising n) (fuel : ℕ) (node : Node n) :
    Done r (fuel + 1) node ↔ Ready fuel node ∧ ∀ c ∈ children r node, Done r fuel c := by
  obtain ⟨theType, addr, value⟩ := node
  have hready : (∀ elemType arraySize, theType ≠ .array elemType (some arraySize)) →
      Ready fuel (⟨theType, addr, value⟩ : Node n) := fun hne elemType arraySize htype =>
    absurd htype (hne elemType arraySize)
  cases theType with
  | bool | integer | float | unknownType | typeError | function =>
      -- only a pointer, a record and an array have children
      refine iff_of_true rfl ⟨hready (by simp), fun c hc => ?_⟩
      exact absurd hc List.not_mem_nil
  | pointer pointed =>
      cases value with
      | none => exact iff_of_true rfl ⟨hready (by simp), fun c hc => absurd hc List.not_mem_nil⟩
      | some base =>
          rw [and_iff_right (hready (by simp)), children, List.forall_mem_map]
          simp only [Done, visit, visitPointer, Option.isSome_map, isSome_mapM]
          rfl
  | record fields =>
      rw [and_iff_right (hready (by simp)), children, List.forall_mem_map]
      simp only [Done, visit, visitRecord, Option.isSome_map, isSome_mapM]
      rfl
  | array elemType size =>
      cases size with
      | none => exact iff_of_true rfl ⟨hready (by simp), fun c hc => absurd hc List.not_mem_nil⟩
      | some arraySize =>
          have hhere : Ready fuel (⟨.array elemType (some arraySize), addr, value⟩ : Node n) ↔
              arraySize < 2 ^ 32 ∧ arraySize < fuel :=
            ⟨fun h => h _ _ rfl, fun h elemType' arraySize' htype => by cases htype; exact h⟩
          rw [hhere, children, List.forall_mem_map]
          simp only [Done, visit, visitArray, Option.isSome_map]
          -- the counter has 32 bits: a larger size is never reached
          rw [isSome_arrayLoop_iff _ _ _ _ (Nat.zero_le _)]
          refine and_congr Iff.rfl ⟨fun h i hi => ?_, fun h i hi _ => ?_⟩
          · have hi := List.mem_range.1 hi
            have hvisit := h i hi (Nat.zero_le _)
            rwa [Option.isSome_map, setWidth_ofNat (by omega)] at hvisit
          · have hvisit := h i (List.mem_range.2 hi)
            rwa [Option.isSome_map, setWidth_ofNat (by omega)]

/-! ## Finitely many nodes -/

/-- The types of an array's elements and of a record's fields. -/
def directParts : RaisedType n → List (RaisedType n)
  | .array element _ => [element]
  | .record fields => fields
  | _ => []

theorem sizeOf_directParts_lt {part t : RaisedType n} (h : part ∈ directParts t) :
    sizeOf part < sizeOf t := by
  cases t with
  | array element size =>
      rw [List.mem_singleton.1 h]
      simp only [RaisedType.array.sizeOf_spec]
      omega
  | record fields =>
      have hlt : sizeOf part < sizeOf fields := List.sizeOf_lt_of_mem h
      simp only [RaisedType.record.sizeOf_spec]
      omega
  | bool | integer | float | unknownType | typeError | function | pointer pointed =>
      exact absurd h List.not_mem_nil

theorem finite_parts (t : RaisedType n) : {part | Descends directParts t part}.Finite := by
  rw [setOf_descends]
  refine Set.Finite.insert t (Set.Finite.biUnion (List.finite_toSet _) fun part hpart => ?_)
  exact finite_parts part
termination_by sizeOf t
decreasing_by exact sizeOf_directParts_lt hpart

/-- The types that a visit from a type may come to. -/
def Visited (r : Raising n) (start : RaisedType n) : Set (RaisedType n) :=
  {t | Descends directParts start t} ∪ ⋃ p, {t | Descends directParts (r.getPointed p) t}

theorem finite_visited (r : Raising n) (start : RaisedType n) : (Visited r start).Finite :=
  (finite_parts start).union (Set.finite_iUnion fun p => finite_parts (r.getPointed p))

theorem visited_of_mem_directParts {r : Raising n} {start t part : RaisedType n}
    (ht : t ∈ Visited r start) (hpart : part ∈ directParts t) : part ∈ Visited r start := by
  rcases ht with ht | ht
  · exact Or.inl (ht.tail hpart)
  · obtain ⟨p, hp⟩ := Set.mem_iUnion.1 ht
    exact Or.inr (Set.mem_iUnion.2 ⟨p, hp.tail hpart⟩)

/-- A child is a node of a part of the type or of a type that pointers point to. -/
theorem theType_of_mem_children {r : Raising n} {node c : Node n} (hc : c ∈ children r node) :
    c.theType ∈ directParts node.theType ∨ ∃ p, c.theType = r.getPointed p := by
  obtain ⟨theType, addr, value⟩ := node
  unfold children at hc
  split at hc
  · next pointed base htype hvalue =>
    obtain ⟨shift, -, rfl⟩ := List.mem_map.1 hc
    exact Or.inr ⟨pointed, rfl⟩
  · next fields htype =>
    obtain ⟨⟨field, i⟩, hfield, rfl⟩ := List.mem_map.1 hc
    refine Or.inl ?_
    rw [htype]
    exact List.fst_mem_of_mem_zipIdx hfield
  · next elemType arraySize htype =>
    obtain ⟨i, -, rfl⟩ := List.mem_map.1 hc
    refine Or.inl ?_
    rw [htype]
    exact List.mem_singleton.2 rfl
  · exact absurd hc List.not_mem_nil

/-- **Only finitely many nodes are visited.** -/
theorem finite_descends (r : Raising n) (node : Node n) :
    {m | Descends (children r) node m}.Finite := by
  have hvisited : ∀ m, Descends (children r) node m → m.theType ∈ Visited r node.theType := by
    intro m hm
    induction hm with
    | refl => exact Or.inl Relation.ReflTransGen.refl
    | tail _ hc ih =>
      rcases theType_of_mem_children hc with hpart | ⟨p, hp⟩
      · exact visited_of_mem_directParts ih hpart
      · rw [hp]
        exact Or.inr (Set.mem_iUnion.2 ⟨p, Relation.ReflTransGen.refl⟩)
  -- a node is a type, an address and a value
  have hall : ((Visited r node.theType ×ˢ (Set.univ : Set (BitVec 64 × Option (BitVec 64)))).image
      fun x => (⟨x.1, x.2.1, x.2.2⟩ : Node n)).Finite :=
    ((finite_visited r node.theType).prod Set.finite_univ).image _
  refine hall.subset fun m hm => ?_
  exact ⟨(m.theType, m.addr, m.value), ⟨hvisited m hm, Set.mem_univ _⟩, rfl⟩

/-! ## Termination -/

theorem fueled_visit (r : Raising n) : Fueled (children r) Ready (Done r) where
  zero _ h := by cases h
  succ := done_succ_iff r
  ready_mono _ hle h elemType arraySize htype :=
    ⟨(h elemType arraySize htype).1, Nat.lt_of_lt_of_le (h elemType arraySize htype).2 hle⟩

/-- **A visit comes to an end exactly when it meets no array that is too long and does not come
back to a node while it visits that node.** -/
theorem terminates_iff (r : Raising n) (node : Node n) :
    Terminates r node ↔ ∀ m, Descends (children r) node m →
      ¬ TooLong m ∧ ¬ Relation.TransGen (Child (children r)) m m := by
  rw [terminates_iff_done, (fueled_visit r).exists_done_iff (finite_descends r node)]
  simp only [exists_ready_iff]

/-- **Raising a counterexample comes to an end and shows the right elements** exactly when the walk
meets no array that is too long and never comes back to a node, and when the indices divide. -/
theorem raising_right_iff (r : Raising n) (node : Node n) (reading : Reading)
    (arrayBounds : List Entry) :
    (Terminates r node ↔ ∀ m, Descends (children r) node m →
      ¬ TooLong m ∧ ¬ Relation.TransGen (Child (children r)) m m) ∧
    (ShowsRight reading arrayBounds ↔ Divides reading arrayBounds) :=
  ⟨terminates_iff r node, showsRight_iff reading arrayBounds⟩

/-- A model in which a record at address 8 holds a pointer to itself. -/
def ring : Raising 1 where
  getPointed _ := .record [.pointer 0]
  query _ := some 8
  arrayBoundsMap := []

/-- The record of the ring. -/
def ringRecord : Node 1 := ⟨.record [.pointer 0], 8, some 8⟩

/-- The pointer of the ring. -/
def ringPointer : Node 1 := ⟨.pointer 0, 8, some 8⟩

/-- A pointer 4 below a base, where elements have the size 4. -/
def below : Entry := ⟨4, some 8, [some 4]⟩

/-- A record that holds a pointer to itself is visited for ever, and the element just below a base
is shown as the second one below it. -/
theorem raising_not_right :
    ¬ Terminates ring ringPointer ∧ ∀ reading, ¬ ShowsRight reading [below] := by
  refine ⟨fun h => ?_, fun reading h => ?_⟩
  · have hrecord : Child (children ring) ringPointer ringRecord := List.mem_singleton.2 rfl
    have hpointer : Child (children ring) ringRecord ringPointer := List.mem_singleton.2 rfl
    apply ((terminates_iff ring ringPointer).1 h ringPointer Relation.ReflTransGen.refl).2
    exact Relation.TransGen.tail (Relation.TransGen.single hrecord) hpointer
  · have hcollected : Collected [below] 4 8 4 :=
      ⟨below, List.mem_singleton.2 rfl, by decide, rfl, List.mem_singleton.2 rfl,
        by decide, by decide⟩
    have hexact := ((showsRight_iff reading [below]).1 h 4 8 4 hcollected).2.2 (by decide)
    refine hexact.1.2.2 ?_
    cases reading with
    | signed => exact ⟨by decide, by decide⟩
    | unsigned => exact ⟨by decide, by decide⟩

end Reanimator

end Borealis
