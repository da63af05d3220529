import Mathlib.Data.BitVec
import Mathlib.Data.List.FinRange
import Mathlib.Data.Set.Basic
import Mathlib.Tactic.Choose
import Mathlib.Tactic.NormNum
import Mathlib.Tactic.Push

/-!
# The persistent hash set

`hamt_set`: a trie over the seven digits of a 32-bit hash, with 32 digits at each level.  A leaf is
a bucket of elements with one hash.  All nodes are immutable, and different versions of a set share
them; the operations compare pointers to notice that nothing has changed.

## Strategy

Which equal nodes are one object is not known: `same` answers for the comparison of pointers, and is
only known to be right when it says yes.  Its answers may differ from one operation to the next.

`Inv` says of a node at a level that its buckets have one hash and no equal elements, and that the
elements below a digit have that digit.  Every operation keeps it, and changes the elements as the
operation on sets does.
-/

namespace Borealis

/-- `hamt_node`.  A position of a branch that is not in the bit mask is `null`. -/
inductive HamtNode (T : Type) where
  | null
  | leaf (value : T) (next : List T)
  | branch (data : Fin 32 → HamtNode T)

namespace HamtNode

variable {T : Type}

def isNull : HamtNode T → Bool
  | null => true
  | _ => false

def isLeaf : HamtNode T → Bool
  | leaf _ _ => true
  | _ => false

/-- A bucket, which may be empty. -/
def ofList : List T → HamtNode T
  | [] => null
  | value :: next => leaf value next

/-- `foreach`: the elements in the order they are visited. -/
def elements : HamtNode T → List T
  | null => []
  | leaf value next => value :: next
  | branch data => (List.finRange 32).flatMap fun i => (data i).elements

/-- `imm_set` of a `compacting_array`, and `imm_remove` with `null`. -/
def set (data : Fin 32 → HamtNode T) (ix : Fin 32) (value : HamtNode T) : Fin 32 → HamtNode T :=
  fun i => if i = ix then value else data i

/-- The positions of the bit mask. -/
def mask (data : Fin 32 → HamtNode T) : List (Fin 32) :=
  (List.finRange 32).filter fun i => !(data i).isNull

/-- A branch without children. -/
def noData : Fin 32 → HamtNode T := fun _ => null

theorem set_self (data : Fin 32 → HamtNode T) (ix : Fin 32) : set data ix (data ix) = data := by
  funext i
  by_cases h : i = ix
  · rw [set, if_pos h, h]
  · rw [set, if_neg h]

@[simp] theorem set_same (data : Fin 32 → HamtNode T) (ix : Fin 32) (c : HamtNode T) :
    set data ix c ix = c := if_pos rfl

theorem set_of_ne {data : Fin 32 → HamtNode T} {ix i : Fin 32} (h : i ≠ ix) (c : HamtNode T) :
    set data ix c i = data i := if_neg h

theorem mem_elements_branch {data : Fin 32 → HamtNode T} {y : T} :
    y ∈ (branch data).elements ↔ ∃ i, y ∈ (data i).elements := by
  rw [elements, List.mem_flatMap]
  exact ⟨fun ⟨i, _, h⟩ => ⟨i, h⟩, fun ⟨i, h⟩ => ⟨i, List.mem_finRange i, h⟩⟩

theorem mem_elements_set {data : Fin 32 → HamtNode T} {ix : Fin 32} {c : HamtNode T} {y : T} :
    y ∈ (branch (set data ix c)).elements ↔
      y ∈ c.elements ∨ ∃ i, i ≠ ix ∧ y ∈ (data i).elements := by
  rw [mem_elements_branch]
  constructor
  · rintro ⟨i, hi⟩
    by_cases h : i = ix
    · subst h
      rw [set_same] at hi
      exact Or.inl hi
    · rw [set_of_ne h] at hi
      exact Or.inr ⟨i, h, hi⟩
  · rintro (hy | ⟨i, h, hi⟩)
    · exact ⟨ix, by rw [set_same]; exact hy⟩
    · exact ⟨i, by rw [set_of_ne h]; exact hi⟩

@[simp] theorem elements_ofList (l : List T) : (ofList l).elements = l := by
  cases l <;> rfl

theorem elements_noData : (branch (noData : Fin 32 → HamtNode T)).elements = [] :=
  List.flatMap_eq_nil_iff.2 fun _ _ => rfl

theorem ofList_inj {l l' : List T} (h : ofList l = ofList l') : l = l' := by
  rw [← elements_ofList l, h, elements_ofList]

end HamtNode

namespace Hamt

open HamtNode

/-- The 32-nary digit number `at` of a hash. -/
def digit (level : ℕ) (hash : BitVec 32) : Fin 32 :=
  Fin.ofNat 32 (hash >>> (level * 5)).toNat

/-- The mixing of the bits of a 64-bit hash. -/
def mix (stdHash : BitVec 64) : BitVec 32 :=
  let h := stdHash + ~~~(stdHash <<< 32)
  let h := h ^^^ (h >>> 22)
  let h := h + ~~~(h <<< 13)
  let h := h ^^^ (h >>> 8)
  let h := h + (h <<< 3)
  let h := h ^^^ (h >>> 15)
  let h := h + ~~~(h <<< 27)
  let h := h ^^^ (h >>> 31)
  h.setWidth 32

section Operations

variable {T : Type} (Hash : T → BitVec 64) (Equal : T → T → Bool)
  (same : HamtNode T → HamtNode T → Bool)

/-- `hash`. -/
def hash (value : T) : BitVec 32 := mix (Hash value)

/-- `seek_bucket`: the bucket at the end of the digits of a hash. -/
def seekBucket : HamtNode T → ℕ → BitVec 32 → List T
  | .null, _, _ => []
  | .leaf value next, _, _ => value :: next
  | .branch data, level, h => seekBucket (data (digit level h)) (level + 1) h

/-- `count`. -/
def count (root : HamtNode T) (value : T) : Bool :=
  (seekBucket root 0 (hash Hash value)).any fun e => Equal e value

/-- The search for a common tail of two buckets: the iterator over the right bucket is not put back,
so that only the left bucket as a whole is found, after the first element of the right one. -/
def hasTail (lb : HamtNode T) : List T → Bool
  | [] => false
  | value :: next => same lb (.leaf value next) || hasTail lb next

/-- `merge_buckets`. -/
def mergeBuckets (lv : T) (ln : List T) (rv : T) (rn : List T) : HamtNode T :=
  if hasTail same (.leaf lv ln) rn then .leaf rv rn
  else
    ofList ((rv :: rn).foldl (fun lit value =>
      if (lv :: ln).all fun v => !Equal v value then value :: lit else lit) (lv :: ln))

/-- The first level from this one on where the digits of the hashes differ. -/
def divertLevel (level : ℕ) (h old : BitVec 32) : Option ℕ :=
  (List.range' level (7 - level)).find? fun l => digit l h != digit l old

/-- The branches above the diverting one, from the bottom. -/
def wrap (level : ℕ) (h : BitVec 32) : ℕ → HamtNode T → HamtNode T
  | 0, node => node
  | n + 1, node => wrap level h n (.branch (set noData (digit (level + n) h) node))

/-- `insert_leaf`: the leaf is `value` with the bucket `next` behind it.  There is no result if no
level diverts. -/
def insertLeaf (value : T) (next : List T) : HamtNode T → ℕ → Option (HamtNode T)
  -- empty node, just return a leaf
  | .null, _ => some (.leaf value next)
  | .leaf v n, level =>
    if same (.leaf v n) (.leaf value next) then some (.leaf value next)
    else if hash Hash value = hash Hash v then some (mergeBuckets Equal same v n value next)
    else
      (divertLevel level (hash Hash value) (hash Hash v)).map fun divert =>
        wrap level (hash Hash value) (divert - level)
          (.branch (set (set noData (digit divert (hash Hash value)) (.leaf value next))
            (digit divert (hash Hash v)) (.leaf v n)))
  | .branch data, level =>
    let ix := digit level (hash Hash value)
    match data ix with
    | .null => some (.branch (set data ix (.leaf value next)))
    | _ => (insertLeaf value next (data ix) (level + 1)).map fun replaced =>
      if same (data ix) replaced then .branch data else .branch (set data ix replaced)

/-- `insert`.  A leaf with another hash is put below a new branch first. -/
def insert (value : T) : ℕ → HamtNode T → ℕ → Option (HamtNode T)
  | 0, _, _ => .none
  | _ + 1, .null, _ => some (.leaf value [])
  | fuel + 1, .leaf v n, level =>
    if hash Hash value = hash Hash v then
      if (v :: n).any fun e => Equal e value then some (.leaf v n)
      -- hash miss, add this element to bucket front
      else some (.leaf value (v :: n))
    else
      (insertLeaf Hash Equal same v n (.branch noData) level).bind fun b =>
        insert value fuel b level
  | fuel + 1, .branch data, level =>
    let ix := digit level (hash Hash value)
    match data ix with
    | .null => some (.branch (set data ix (.leaf value [])))
    | child => (insert value fuel child (level + 1)).map fun replaced =>
      if same child replaced then .branch data else .branch (set data ix replaced)

/-- `erase` in a bucket whose elements have the hash of the value. -/
def eraseBucket (value : T) : List T → List T
  | [] => []
  | v :: n =>
    if Equal v value then n
    else if same (ofList n) (ofList (eraseBucket value n)) then v :: n
    else v :: eraseBucket value n

/-- A branch from which a child is gone. -/
def shrink (data : Fin 32 → HamtNode T) : HamtNode T :=
  match mask data with
  -- we again removed the whole branch
  | [] => .null
  -- branch with single leaf is redundant
  | [i] => if (data i).isLeaf then data i else .branch data
  | _ => .branch data

/-- `erase`. -/
def erase (value : T) : HamtNode T → ℕ → HamtNode T
  | .null, _ => .null
  | .leaf v n, _ =>
    if hash Hash value = hash Hash v then ofList (eraseBucket Equal same value (v :: n))
    else .leaf v n
  | .branch data, level =>
    let ix := digit level (hash Hash value)
    match data ix with
    | .null => .branch data
    | _ =>
      match erase value (data ix) (level + 1) with
      | .null => shrink (set data ix .null)
      | erased => if same (data ix) erased then .branch data else .branch (set data ix erased)

/-- All of the children, or nothing. -/
def sequence (data : Fin 32 → Option (HamtNode T)) : Option (Fin 32 → HamtNode T) :=
  if (List.finRange 32).all fun i => (data i).isSome then some fun i => (data i).getD .null
  else .none

/-- `merge`. -/
def merge : HamtNode T → HamtNode T → ℕ → Option (HamtNode T)
  | .null, r, _ => some r
  | l, .null, _ => some l
  | .branch l, .branch r, level =>
    if same (.branch l) (.branch r) then some (.branch l)
    else (sequence fun i => merge (l i) (r i) (level + 1)).map .branch
  | .leaf v n, r, level =>
    if same (.leaf v n) r then some (.leaf v n) else insertLeaf Hash Equal same v n r level
  | .branch l, .leaf v n, level => insertLeaf Hash Equal same v n (.branch l) level

end Operations

/-! ## Digits -/

theorem toNat_digit (level : ℕ) (h : BitVec 32) :
    (digit level h).val = h.toNat / 2 ^ (level * 5) % 32 := by
  rw [digit, Fin.val_ofNat, BitVec.toNat_ushiftRight, Nat.shiftRight_eq_div_pow]

/-- Seven digits make up a hash. -/
theorem eq_of_digits {a b : BitVec 32} (h : ∀ k < 7, digit k a = digit k b) : a = b := by
  have hval : ∀ k < 7, a.toNat / 2 ^ (k * 5) % 32 = b.toNat / 2 ^ (k * 5) % 32 := fun k hk => by
    rw [← toNat_digit, ← toNat_digit, h k hk]
  have h0 := hval 0 (by decide)
  have h1 := hval 1 (by decide)
  have h2 := hval 2 (by decide)
  have h3 := hval 3 (by decide)
  have h4 := hval 4 (by decide)
  have h5 := hval 5 (by decide)
  have h6 := hval 6 (by decide)
  have ha := a.isLt
  have hb := b.isLt
  norm_num at h0 h1 h2 h3 h4 h5 h6 ha hb
  apply BitVec.eq_of_toNat_eq
  omega

/-- Different hashes divert at some level, which is the first one. -/
theorem exists_divertLevel {level : ℕ} {h old : BitVec 32} (hne : h ≠ old)
    (hpath : ∀ k < level, digit k h = digit k old) :
    ∃ d, divertLevel level h old = some d ∧ level ≤ d ∧ d < 7 ∧ digit d h ≠ digit d old ∧
      ∀ k < d, digit k h = digit k old := by
  cases hfind : divertLevel level h old with
  | none =>
      refine absurd (eq_of_digits fun k hk => ?_) hne
      rcases Nat.lt_or_ge k level with hlt | hge
      · exact hpath k hlt
      · have hnot := List.find?_eq_none.1 hfind k (List.mem_range'_1.2 ⟨hge, by omega⟩)
        simpa using hnot
  | some d =>
      have hd := List.find?_some hfind
      obtain ⟨hge, hlt⟩ := List.mem_range'_1.1 (List.mem_of_find?_eq_some hfind)
      refine ⟨d, rfl, hge, by omega, by simpa using hd, fun k hk => ?_⟩
      rcases Nat.lt_or_ge k level with hlt' | hge'
      · exact hpath k hlt'
      · obtain ⟨-, as, bs, hsplit, has⟩ := List.find?_eq_some_iff_append.1 hfind
        have hmem : k ∈ as := by
          have hk' : k ∈ as ++ d :: bs := hsplit ▸ List.mem_range'_1.2 ⟨hge', by omega⟩
          rcases List.mem_append.1 hk' with hk' | hk'
          · exact hk'
          · exfalso
            have hsorted : (as ++ d :: bs).Pairwise (· < ·) := hsplit ▸ List.pairwise_lt_range'
            have hrest := (List.pairwise_append.1 hsorted).2.1
            rcases List.mem_cons.1 hk' with rfl | hk'
            · exact absurd hk (lt_irrefl _)
            · exact absurd ((List.pairwise_cons.1 hrest).1 k hk') (by omega)
        simpa using has k hmem

/-! ## The invariant -/

section Invariant

variable {T : Type} (Hash : T → BitVec 64) (Equal : T → T → Bool)

/-- No two elements are equal. -/
def Distinct (l : List T) : Prop := l.Pairwise fun a b => Equal a b = false

/-- **The invariant** of a node at a level. -/
def Inv : HamtNode T → ℕ → Prop
  | .null, _ => True
  | .leaf v n, _ => (∀ y ∈ n, hash Hash y = hash Hash v) ∧ Distinct Equal (v :: n)
  | .branch data, level =>
    level ≤ 6 ∧ ∀ i, Inv (data i) (level + 1) ∧
      ∀ y ∈ (data i).elements, digit level (hash Hash y) = i

/-- A node holds the union of two buckets up to equality. -/
structure Unites (level : ℕ) (left right : List T) (r : HamtNode T) : Prop where
  inv : Inv Hash Equal r level
  subset : ∀ y ∈ r.elements, y ∈ left ∨ y ∈ right
  covers : ∀ y, y ∈ left ∨ y ∈ right → ∃ z ∈ r.elements, Equal z y = true

end Invariant

section Proofs

variable {T : Type} {Hash : T → BitVec 64} {Equal : T → T → Bool}
  {same : HamtNode T → HamtNode T → Bool}
  (hEqual : Equivalence fun a b => Equal a b = true)
  (hHash : ∀ a b, Equal a b = true → Hash a = Hash b)
  (hsame : ∀ a b, same a b = true → a = b)

include hHash in
theorem hash_eq_of_equal {a b : T} (h : Equal a b = true) : hash Hash a = hash Hash b :=
  congrArg mix (hHash a b h)

include hHash in
theorem equal_of_hash_ne {a b : T} (h : hash Hash a ≠ hash Hash b) : Equal a b = false := by
  cases hab : Equal a b with
  | false => rfl
  | true => exact absurd (hash_eq_of_equal hHash hab) h

include hEqual in
theorem equal_comm (a b : T) : Equal a b = Equal b a :=
  Bool.eq_iff_iff.2 ⟨hEqual.symm, hEqual.symm⟩

include hEqual in
theorem equal_false_symm {a b : T} (h : Equal a b = false) : Equal b a = false :=
  equal_comm hEqual b a ▸ h

theorem inv_ofList {l : List T} {h : BitVec 32} (hhash : ∀ y ∈ l, hash Hash y = h)
    (hdistinct : Distinct Equal l) (level : ℕ) : Inv Hash Equal (ofList l) level := by
  cases l with
  | nil => trivial
  | cons v n =>
      obtain ⟨hv, hn⟩ := List.forall_mem_cons.1 hhash
      exact ⟨fun y hy => (hn y hy).trans hv.symm, hdistinct⟩

/-- The elements of a bucket have one hash. -/
theorem hash_of_mem_bucket {v : T} {n : List T} {level : ℕ}
    (hinv : Inv Hash Equal (.leaf v n) level) : ∀ y ∈ v :: n, hash Hash y = hash Hash v := by
  intro y hy
  rcases List.mem_cons.1 hy with rfl | hy
  · rfl
  · exact hinv.1 y hy

theorem inv_noData {level : ℕ} (hlevel : level ≤ 6) :
    Inv Hash Equal (.branch noData) level :=
  ⟨hlevel, fun _ => ⟨trivial, fun _ hy => absurd hy List.not_mem_nil⟩⟩

/-- A child is replaced. -/
theorem inv_set {data : Fin 32 → HamtNode T} {level : ℕ} {ix : Fin 32} {c : HamtNode T}
    (hinv : Inv Hash Equal (.branch data) level) (hc : Inv Hash Equal c (level + 1))
    (hdigit : ∀ y ∈ c.elements, digit level (hash Hash y) = ix) :
    Inv Hash Equal (.branch (set data ix c)) level := by
  refine ⟨hinv.1, fun i => ?_⟩
  by_cases h : i = ix
  · subst h
    rw [set_same]
    exact ⟨hc, hdigit⟩
  · rw [set_of_ne h]
    exact hinv.2 i

include hHash in
/-- The elements of a node are distinct. -/
theorem distinct_elements (n : HamtNode T) :
    ∀ level, Inv Hash Equal n level → Distinct Equal n.elements := by
  induction n with
  | null => exact fun _ _ => List.Pairwise.nil
  | leaf v n => exact fun _ hinv => hinv.2
  | branch data ih =>
      intro level hinv
      rw [elements, Distinct, List.pairwise_flatMap]
      refine ⟨fun i _ => ih i (level + 1) (hinv.2 i).1, ?_⟩
      refine (List.nodup_finRange 32).imp fun {i j} hne a ha b hb => ?_
      -- elements of different children have different digits
      refine equal_of_hash_ne hHash fun heq => hne ?_
      rw [← (hinv.2 i).2 a ha, ← (hinv.2 j).2 b hb, heq]

/-! ## Unions -/

theorem unites_set {data : Fin 32 → HamtNode T} {level : ℕ} {ix : Fin 32} {c : HamtNode T}
    {right : List T} (hEqual : Equivalence fun a b => Equal a b = true)
    (hinv : Inv Hash Equal (.branch data) level)
    (hc : Unites Hash Equal (level + 1) (data ix).elements right c)
    (hright : ∀ y ∈ right, digit level (hash Hash y) = ix) :
    Unites Hash Equal level (HamtNode.branch data).elements right (.branch (set data ix c)) where
  inv := inv_set hinv hc.inv fun y hy => by
    rcases hc.subset y hy with hy | hy
    · exact (hinv.2 ix).2 y hy
    · exact hright y hy
  subset y hy := by
    rcases mem_elements_set.1 hy with hy | ⟨i, -, hy⟩
    · exact (hc.subset y hy).imp (fun hy => mem_elements_branch.2 ⟨ix, hy⟩) id
    · exact Or.inl (mem_elements_branch.2 ⟨i, hy⟩)
  covers y hy := by
    have hchild : y ∈ (data ix).elements ∨ y ∈ right →
        ∃ z ∈ (HamtNode.branch (set data ix c)).elements, Equal z y = true := fun hy => by
      obtain ⟨z, hz, heq⟩ := hc.covers y hy
      exact ⟨z, mem_elements_set.2 (Or.inl hz), heq⟩
    rcases hy with hy | hy
    · obtain ⟨i, hi⟩ := mem_elements_branch.1 hy
      by_cases h : i = ix
      · exact hchild (Or.inl (h ▸ hi))
      · exact ⟨y, mem_elements_set.2 (Or.inr ⟨i, h, hi⟩), hEqual.refl y⟩
    · exact hchild (Or.inr hy)

include hsame in
theorem same_or_set {data : Fin 32 → HamtNode T} {ix : Fin 32} {c : HamtNode T} :
    (if same (data ix) c then HamtNode.branch data else .branch (set data ix c)) =
      .branch (set data ix c) := by
  split_ifs with h
  · rw [← hsame _ _ h, set_self]
  · rfl

include hEqual in
/-- A node that has all the elements. -/
theorem unites_of_mem {level : ℕ} {left right : List T} {r : HamtNode T}
    (hinv : Inv Hash Equal r level) (hsubset : ∀ y, y ∈ r.elements ↔ y ∈ left ∨ y ∈ right) :
    Unites Hash Equal level left right r :=
  ⟨hinv, fun y hy => (hsubset y).1 hy, fun y hy => ⟨y, (hsubset y).2 hy, hEqual.refl y⟩⟩

include hEqual in
/-- A node is the union of nothing and itself. -/
theorem unites_nil {level : ℕ} {r : HamtNode T} (hinv : Inv Hash Equal r level) :
    Unites Hash Equal level [] r.elements r :=
  unites_of_mem hEqual hinv fun _ =>
    ⟨Or.inr, fun hy => hy.elim (fun hy => absurd hy List.not_mem_nil) id⟩

theorem foldl_cons_filter (p : T → Bool) (rs l : List T) :
    rs.foldl (fun lit v => if p v then v :: lit else lit) l = (rs.filter p).reverse ++ l := by
  induction rs generalizing l with
  | nil => rfl
  | cons v rs ih =>
      rw [List.foldl_cons, ih, List.filter_cons]
      split_ifs
      · rw [List.reverse_cons, List.append_assoc, List.singleton_append]
      · rfl

include hsame in
theorem hasTail_sound {lv : T} {ln : List T} : (l : List T) →
    hasTail same (.leaf lv ln) l = true → ∀ y ∈ lv :: ln, y ∈ l
  | [] => fun h => by cases h
  | v :: n => fun h y hy => by
    rw [hasTail, Bool.or_eq_true] at h
    rcases h with h | h
    · obtain ⟨rfl, rfl⟩ := HamtNode.leaf.inj (hsame _ _ h)
      exact hy
    · exact List.mem_cons_of_mem v (hasTail_sound n h y hy)

include hEqual hsame in
/-- `merge_buckets` of buckets with one hash. -/
theorem unites_mergeBuckets {lv rv : T} {ln rn : List T} {level : ℕ}
    (hl : Inv Hash Equal (.leaf lv ln) level) (hr : Inv Hash Equal (.leaf rv rn) level)
    (hhash : hash Hash rv = hash Hash lv) :
    Unites Hash Equal level (lv :: ln) (rv :: rn) (mergeBuckets Equal same lv ln rv rn) := by
  unfold mergeBuckets
  split_ifs with htail
  · refine unites_of_mem hEqual hr fun y => ?_
    refine ⟨Or.inr, fun hy => hy.elim (fun hy => ?_) id⟩
    exact List.mem_cons_of_mem rv (hasTail_sound hsame rn htail y hy)
  · rw [foldl_cons_filter]
    have hnew : ∀ {y}, y ∈ ((rv :: rn).filter fun value => (lv :: ln).all fun v =>
        !Equal v value).reverse ↔ y ∈ rv :: rn ∧ ∀ v ∈ lv :: ln, Equal v y = false := by
      intro y
      rw [List.mem_reverse, List.mem_filter, List.all_eq_true]
      simp only [Bool.not_eq_true']
    refine ⟨inv_ofList (h := hash Hash lv) ?_ ?_ level, ?_, ?_⟩
    · intro y hy
      rcases List.mem_append.1 hy with hy | hy
      · exact (hash_of_mem_bucket hr y (hnew.1 hy).1).trans hhash
      · exact hash_of_mem_bucket hl y hy
    · refine List.pairwise_append.2 ⟨?_, hl.2, ?_⟩
      · rw [List.pairwise_reverse]
        exact (hr.2.filter _).imp fun h => equal_false_symm hEqual h
      · exact fun a ha b hb => equal_false_symm hEqual ((hnew.1 ha).2 b hb)
    · intro y hy
      rw [elements_ofList] at hy
      rcases List.mem_append.1 hy with hy | hy
      · exact Or.inr (hnew.1 hy).1
      · exact Or.inl hy
    · rintro y (hy | hy)
      · exact ⟨y, by rw [elements_ofList]; exact List.mem_append_right _ hy, hEqual.refl y⟩
      · rw [elements_ofList]
        by_cases hfresh : ∀ v ∈ lv :: ln, Equal v y = false
        · exact ⟨y, List.mem_append_left _ (hnew.2 ⟨hy, hfresh⟩), hEqual.refl y⟩
        · push Not at hfresh
          obtain ⟨v, hv, heq⟩ := hfresh
          exact ⟨v, List.mem_append_right _ hv, by simpa using heq⟩

/-! ## Insertion -/

theorem unites_wrap {level : ℕ} {h : BitVec 32} (n : ℕ) (hn : level + n ≤ 7) {b : HamtNode T}
    {left right : List T}
    (hb : Unites Hash Equal (level + n) left right b)
    (hdigit : ∀ y ∈ b.elements, ∀ k, level ≤ k → k < level + n →
      digit k (hash Hash y) = digit k h) :
    Unites Hash Equal level left right (wrap level h n b) := by
  induction n generalizing b with
  | zero => exact hb
  | succ n ih =>
      have hmem : ∀ {y}, y ∈ (HamtNode.branch (set noData (digit (level + n) h) b)).elements ↔
          y ∈ b.elements := by
        intro y
        rw [mem_elements_set]
        exact ⟨fun hy => hy.elim id fun ⟨_, _, hy⟩ => absurd hy List.not_mem_nil, Or.inl⟩
      refine ih (by omega) ⟨?_, fun y hy => hb.subset y (hmem.1 hy), fun y hy => ?_⟩
        fun y hy k hk hlt => hdigit y (hmem.1 hy) k hk (by omega)
      · exact inv_set (inv_noData (by omega)) hb.inv
          fun y hy => hdigit y hy (level + n) (by omega) (by omega)
      · obtain ⟨z, hz, heq⟩ := hb.covers y hy
        exact ⟨z, hmem.2 hz, heq⟩

include hEqual in
/-- Two buckets with different hashes below one branch. -/
theorem unites_pair {level : ℕ} (hlevel : level ≤ 6) {v w : T} {n m : List T}
    (hv : ∀ l, Inv Hash Equal (.leaf v n) l) (hw : ∀ l, Inv Hash Equal (.leaf w m) l)
    (hne : digit level (hash Hash w) ≠ digit level (hash Hash v)) :
    Unites Hash Equal level (v :: n) (w :: m)
      (.branch (set (set noData (digit level (hash Hash w)) (.leaf w m))
        (digit level (hash Hash v)) (.leaf v n))) := by
  have hdigit : ∀ {v : T} {n : List T}, (∀ l, Inv Hash Equal (.leaf v n) l) → ∀ y ∈ v :: n,
      digit level (hash Hash y) = digit level (hash Hash v) := by
    intro v n hv y hy
    rw [hash_of_mem_bucket (hv 0) y hy]
  refine unites_of_mem hEqual ?_ fun y => ?_
  · exact inv_set (inv_set (inv_noData hlevel) (hw _) (hdigit hw)) (hv _) (hdigit hv)
  · rw [mem_elements_set]
    constructor
    · rintro (hy | ⟨i, -, hy⟩)
      · exact Or.inl hy
      · have hset := mem_elements_set.1 (mem_elements_branch.2 ⟨i, hy⟩)
        exact hset.elim Or.inr fun ⟨_, _, hy⟩ => absurd hy List.not_mem_nil
    · rintro (hy | hy)
      · exact Or.inl hy
      · exact Or.inr ⟨digit level (hash Hash w), hne, by rw [set_same]; exact hy⟩

include hEqual hsame in
/-- **`insert_leaf`** has a result, the union of a node and a bucket. -/
theorem insertLeaf_unites {value : T} {next : List T}
    (hleaf : ∀ l, Inv Hash Equal (.leaf value next) l) (n : HamtNode T) :
    ∀ level ≤ 7, Inv Hash Equal n level →
      (∀ y ∈ n.elements, ∀ k < level, digit k (hash Hash value) = digit k (hash Hash y)) →
      ∃ r, insertLeaf Hash Equal same value next n level = some r ∧
        Unites Hash Equal level n.elements (value :: next) r := by
  have hbucket := hash_of_mem_bucket (hleaf 0)
  have hsingle : ∀ level, Unites Hash Equal level [] (value :: next) (.leaf value next) :=
    fun level => unites_nil hEqual (hleaf level)
  induction n with
  | null => exact fun level _ _ _ => ⟨_, rfl, hsingle level⟩
  | leaf v n =>
      intro level hlevel hinv hpath
      unfold insertLeaf
      split_ifs with hobject hhash
      · obtain ⟨rfl, rfl⟩ := HamtNode.leaf.inj (hsame _ _ hobject)
        exact ⟨_, rfl, unites_of_mem hEqual hinv fun y => ⟨Or.inl, fun hy => hy.elim id id⟩⟩
      · exact ⟨_, rfl, unites_mergeBuckets hEqual hsame hinv (hleaf level) hhash⟩
      · obtain ⟨d, hd, hge, hlt, hne, hagree⟩ := exists_divertLevel hhash
          (hpath v List.mem_cons_self)
        refine ⟨_, by rw [hd, Option.map_some], ?_⟩
        have hpair := unites_pair hEqual (Nat.le_of_lt_succ hlt) (fun _ => hinv) hleaf hne
        refine unites_wrap (d - level) (by omega)
          ((Nat.add_sub_cancel' hge).symm ▸ hpair) fun y hy k hk hkd => ?_
        rcases hpair.subset y hy with hy | hy
        · rw [hash_of_mem_bucket hinv y hy, hagree k (by omega)]
        · rw [hbucket y hy]
  | branch data ih =>
      intro level _ hinv hpath
      have hlevel := hinv.1
      have hright : ∀ y ∈ value :: next,
          digit level (hash Hash y) = digit level (hash Hash value) := fun y hy => by
        rw [hbucket y hy]
      have hchildPath : ∀ y ∈ (data (digit level (hash Hash value))).elements, ∀ k < level + 1,
          digit k (hash Hash value) = digit k (hash Hash y) := by
        intro y hy k hk
        rcases Nat.lt_succ_iff_lt_or_eq.1 hk with hk | rfl
        · exact hpath y (mem_elements_branch.2 ⟨_, hy⟩) k hk
        · exact ((hinv.2 _).2 y hy).symm
      have hrec := ih (digit level (hash Hash value)) (level + 1) (by omega)
        (hinv.2 _).1 hchildPath
      unfold insertLeaf
      dsimp only
      split
      · next hnull =>
        refine ⟨_, rfl, unites_set hEqual hinv ?_ hright⟩
        rw [hnull]
        exact hsingle (level + 1)
      · obtain ⟨r, hr, hunites⟩ := hrec
        refine ⟨_, by rw [hr, Option.map_some], ?_⟩
        rw [same_or_set hsame]
        exact unites_set hEqual hinv hunites hright

include hEqual hsame in
/-- **`insert`** has a result, the node with one more element. -/
theorem insert_unites (value : T) (fuel : ℕ) :
    ∀ (n : HamtNode T), ∀ level ≤ 7, Inv Hash Equal n level →
      (∀ y ∈ n.elements, ∀ k < level, digit k (hash Hash value) = digit k (hash Hash y)) →
      2 * (8 - level) - (if n.isLeaf then 0 else 1) ≤ fuel →
      ∃ r, insert Hash Equal same value fuel n level = some r ∧
        Unites Hash Equal level n.elements [value] r := by
  have hleaf : ∀ level, Inv Hash Equal (.leaf value []) level := fun _ =>
    ⟨fun _ hy => absurd hy List.not_mem_nil, List.pairwise_singleton _ _⟩
  have hsingle : ∀ level, Unites Hash Equal level [] [value] (.leaf value []) := fun level =>
    unites_nil hEqual (hleaf level)
  induction fuel with
  | zero =>
      intro n level hlevel _ _ hfuel
      split_ifs at hfuel <;> omega
  | succ fuel ih =>
      intro n level hlevel hinv hpath hfuel
      cases n with
      | null => exact ⟨_, rfl, hsingle level⟩
      | leaf v n =>
          rw [insert]
          split_ifs with hhash hany
          · -- an equal element is there
            refine ⟨_, rfl, hinv, fun y hy => Or.inl hy, ?_⟩
            rintro y (hy | hy)
            · exact ⟨y, hy, hEqual.refl y⟩
            · obtain ⟨e, he, heq⟩ := List.any_eq_true.1 hany
              rw [List.mem_singleton.1 hy]
              exact ⟨e, he, heq⟩
          · refine ⟨_, rfl, unites_of_mem hEqual ⟨?_, ?_⟩ fun y => ?_⟩
            · intro y hy
              exact (hash_of_mem_bucket hinv y hy).trans hhash.symm
            · refine List.pairwise_cons.2 ⟨fun e he => ?_, hinv.2⟩
              have hnot : ¬ Equal e value = true := fun heq =>
                hany (List.any_eq_true.2 ⟨e, he, heq⟩)
              exact equal_false_symm hEqual (Bool.eq_false_iff.2 hnot)
            · show y ∈ value :: v :: n ↔ _
              rw [List.mem_cons, List.mem_singleton]
              exact or_comm
          · -- another hash: there is a level left
            have hlevel6 : level ≤ 6 := by
              by_contra hgt
              refine hhash (eq_of_digits fun k hk => hpath v List.mem_cons_self k (by omega))
            have hbranch := unites_set hEqual (inv_noData hlevel6)
              (show Unites Hash Equal (level + 1)
                  (noData (digit level (hash Hash v)) : HamtNode T).elements (v :: n)
                  (.leaf v n) from unites_nil hEqual
                    (show Inv Hash Equal (.leaf v n) (level + 1) from hinv))
              (fun y hy => by rw [hash_of_mem_bucket hinv y hy])
            rw [elements_noData] at hbranch
            have hmem : ∀ y ∈ (HamtNode.branch
                (set noData (digit level (hash Hash v)) (.leaf v n))).elements, y ∈ v :: n :=
              fun y hy => (hbranch.subset y hy).elim (fun hy => absurd hy List.not_mem_nil) id
            obtain ⟨r, hr, hunites⟩ := ih _ level hlevel hbranch.inv
              (fun y hy k hk => hpath y (hmem y hy) k hk)
              (by
                simp only [HamtNode.isLeaf, Bool.false_eq_true, if_true, if_false] at hfuel ⊢
                omega)
            refine ⟨r, hr, hunites.inv, fun y hy => (hunites.subset y hy).imp (hmem y) id, ?_⟩
            rintro y (hy | hy)
            · obtain ⟨z, hz, heq⟩ := hbranch.covers y (Or.inr hy)
              obtain ⟨w, hw, heq'⟩ := hunites.covers z (Or.inl hz)
              exact ⟨w, hw, hEqual.trans heq' heq⟩
            · exact hunites.covers y (Or.inr hy)
      | branch data =>
          have hlevel6 := hinv.1
          have hright : ∀ y ∈ [value],
              digit level (hash Hash y) = digit level (hash Hash value) := fun y hy => by
            rw [List.mem_singleton.1 hy]
          have hrec := ih (data (digit level (hash Hash value))) (level + 1) (by omega)
            (hinv.2 _).1 (fun y hy k hk => by
              rcases Nat.lt_succ_iff_lt_or_eq.1 hk with hk | rfl
              · exact hpath y (mem_elements_branch.2 ⟨_, hy⟩) k hk
              · exact ((hinv.2 _).2 y hy).symm)
            (by
              simp only [HamtNode.isLeaf, Bool.false_eq_true, if_false] at hfuel
              omega)
          rw [insert]
          split
          · next hnull =>
            refine ⟨_, rfl, unites_set hEqual hinv ?_ hright⟩
            rw [hnull]
            exact hsingle (level + 1)
          · obtain ⟨r, hr, hunites⟩ := hrec
            refine ⟨_, by rw [hr, Option.map_some], ?_⟩
            rw [same_or_set hsame]
            exact unites_set hEqual hinv hunites hright

/-! ## Removal -/

theorem filter_eq_self_of_forall {value : T} {l : List T} (h : ∀ y ∈ l, Equal y value = false) :
    (l.filter fun y => !Equal y value) = l :=
  List.filter_eq_self.2 fun y hy => by rw [h y hy]; rfl

include hEqual hsame in
theorem eraseBucket_eq (value : T) {l : List T} (hl : Distinct Equal l) :
    eraseBucket Equal same value l = l.filter fun y => !Equal y value := by
  induction l with
  | nil => rfl
  | cons v n ih =>
      obtain ⟨hv, hn⟩ := List.pairwise_cons.1 hl
      rw [eraseBucket, ih hn]
      by_cases heq : Equal v value = true
      · -- no other element is equal to the value
        rw [if_pos heq, List.filter_cons_of_neg (by rw [heq]; decide)]
        refine (filter_eq_self_of_forall fun y hy => ?_).symm
        cases hyv : Equal y value with
        | false => rfl
        | true =>
            have hvy : Equal v y = true := hEqual.trans heq (hEqual.symm hyv)
            exact absurd hvy (by rw [hv y hy]; decide)
      · rw [if_neg heq, List.filter_cons_of_pos (by simpa using heq)]
        split_ifs with hobject
        · rw [← ofList_inj (hsame _ _ hobject)]
        · rfl

theorem mem_mask {data : Fin 32 → HamtNode T} {i : Fin 32} :
    i ∈ mask data ↔ (data i).isNull = false := by
  rw [mask, List.mem_filter]
  simp [List.mem_finRange]

/-- The only child of a branch. -/
theorem elements_of_mask {data : Fin 32 → HamtNode T} {i : Fin 32} (h : mask data = [i]) :
    (HamtNode.branch data).elements = (data i).elements := by
  have hnull : ∀ j, j ≠ i → (data j).elements = [] := fun j hj => by
    have hjmask : j ∉ mask data := by
      rw [h, List.mem_singleton]
      exact hj
    rw [mem_mask, Bool.not_eq_false] at hjmask
    cases hdata : data j with
    | null => rfl
    | _ => rw [hdata] at hjmask; cases hjmask
  rw [elements]
  have hlist : ∀ l : List (Fin 32), l.Nodup →
      l.flatMap (fun j => (data j).elements) = if i ∈ l then (data i).elements else [] := by
    intro l hl
    induction l with
    | nil => rfl
    | cons j l ih =>
        obtain ⟨hj, hl⟩ := List.nodup_cons.1 hl
        rw [List.flatMap_cons, ih hl]
        by_cases hji : j = i
        · subst hji
          rw [if_neg hj, if_pos List.mem_cons_self, List.append_nil]
        · rw [hnull j hji, List.nil_append]
          simp only [List.mem_cons, Ne.symm hji, false_or]
  rw [hlist _ (List.nodup_finRange 32), if_pos (List.mem_finRange i)]

theorem elements_shrink (data : Fin 32 → HamtNode T) :
    (shrink data).elements = (HamtNode.branch data).elements := by
  unfold shrink
  split
  · next h =>
    refine (List.flatMap_eq_nil_iff.2 fun i _ => ?_).symm
    have hi : i ∉ mask data := h ▸ List.not_mem_nil
    rw [mem_mask, Bool.not_eq_false] at hi
    cases hdata : data i with
    | null => rfl
    | _ => rw [hdata] at hi; cases hi
  · next i h =>
    split_ifs
    · exact (elements_of_mask h).symm
    · rfl
  · rfl

theorem inv_shrink {data : Fin 32 → HamtNode T} {level : ℕ}
    (hinv : Inv Hash Equal (.branch data) level) : Inv Hash Equal (shrink data) level := by
  unfold shrink
  split
  · trivial
  · next i h =>
    split_ifs with hleaf
    · have hi := (hinv.2 i).1
      cases hdata : data i with
      | leaf v n =>
          rw [hdata] at hi
          exact hi
      | _ => rw [hdata] at hleaf; cases hleaf
    · exact hinv
  · exact hinv

/-- The child in which the value would be loses it. -/
theorem elements_set_filter {data : Fin 32 → HamtNode T} {value : T} {ix : Fin 32}
    {c : HamtNode T} (hc : c.elements = (data ix).elements.filter fun y => !Equal y value)
    (hother : ∀ i, i ≠ ix → ∀ y ∈ (data i).elements, Equal y value = false) :
    (HamtNode.branch (set data ix c)).elements =
      (HamtNode.branch data).elements.filter fun y => !Equal y value := by
  rw [elements, elements, List.filter_flatMap]
  refine List.flatMap_congr fun i _ => ?_
  by_cases h : i = ix
  · subst h
    rw [set_same, hc]
  · rw [set_of_ne h]
    exact (filter_eq_self_of_forall (hother i h)).symm

include hEqual hHash hsame in
/-- **`erase`** removes the elements that are equal to the value. -/
theorem inv_erase (value : T) (n : HamtNode T) :
    ∀ level, Inv Hash Equal n level →
      Inv Hash Equal (erase Hash Equal same value n level) level ∧
        (erase Hash Equal same value n level).elements =
          n.elements.filter fun y => !Equal y value := by
  induction n with
  | null => exact fun _ _ => ⟨trivial, rfl⟩
  | leaf v n =>
      intro level hinv
      have hhash := hash_of_mem_bucket hinv
      rw [erase]
      split_ifs with heq
      · rw [eraseBucket_eq hEqual hsame value hinv.2]
        refine ⟨inv_ofList (h := hash Hash v) ?_ (hinv.2.filter _) level, elements_ofList _⟩
        exact fun y hy => hhash y (List.mem_of_mem_filter hy)
      · refine ⟨hinv, (filter_eq_self_of_forall fun y hy => ?_).symm⟩
        refine equal_of_hash_ne hHash fun h => heq ?_
        rw [← h, hhash y hy]
  | branch data ih =>
      intro level hinv
      have hother : ∀ i, i ≠ digit level (hash Hash value) →
          ∀ y ∈ (data i).elements, Equal y value = false := fun i hi y hy =>
        equal_of_hash_ne hHash fun h => hi (by rw [← (hinv.2 i).2 y hy, h])
      obtain ⟨hchild, helements⟩ := ih (digit level (hash Hash value)) (level + 1) (hinv.2 _).1
      have hdigit : ∀ y ∈ (erase Hash Equal same value
          (data (digit level (hash Hash value))) (level + 1)).elements,
          digit level (hash Hash y) = digit level (hash Hash value) := fun y hy => by
        rw [helements] at hy
        exact (hinv.2 _).2 y (List.mem_of_mem_filter hy)
      have hset := inv_set hinv hchild hdigit
      have hfilter := elements_set_filter helements hother
      rw [erase]
      split
      · next hnull =>
        refine ⟨hinv, ?_⟩
        have hnone : erase Hash Equal same value (data (digit level (hash Hash value)))
            (level + 1) = data (digit level (hash Hash value)) := by
          rw [hnull]
          rfl
        rw [← hfilter, hnone, set_self]
      · split
        · next hgone =>
          rw [hgone] at hset hfilter
          exact ⟨inv_shrink hset, (elements_shrink _).trans hfilter⟩
        · rw [same_or_set hsame]
          exact ⟨hset, hfilter⟩

/-! ## Union -/

theorem sequence_eq_some {data : Fin 32 → Option (HamtNode T)} {r : Fin 32 → HamtNode T}
    (h : ∀ i, data i = some (r i)) : sequence data = some r := by
  have hall : ((List.finRange 32).all fun i => (data i).isSome) = true :=
    List.all_eq_true.2 fun i _ => by rw [h i]; rfl
  rw [sequence, if_pos hall]
  exact congrArg some (funext fun i => by rw [h i]; rfl)

theorem Unites.comm {level : ℕ} {left right : List T} {r : HamtNode T}
    (h : Unites Hash Equal level left right r) : Unites Hash Equal level right left r :=
  ⟨h.inv, fun y hy => (h.subset y hy).symm, fun y hy => h.covers y hy.symm⟩

include hEqual hsame in
/-- **`merge`** has a result, the union of two nodes. -/
theorem merge_unites (l : HamtNode T) :
    ∀ r : HamtNode T, ∀ level ≤ 7, Inv Hash Equal l level → Inv Hash Equal r level →
      (∀ y ∈ l.elements, ∀ z ∈ r.elements, ∀ k < level,
        digit k (hash Hash y) = digit k (hash Hash z)) →
      ∃ m, merge Hash Equal same l r level = some m ∧
        Unites Hash Equal level l.elements r.elements m := by
  have hself : ∀ {level} {r : HamtNode T}, Inv Hash Equal r level →
      Unites Hash Equal level r.elements r.elements r := fun hr =>
    unites_of_mem hEqual hr fun y => ⟨Or.inl, fun hy => hy.elim id id⟩
  have hempty : ∀ {level} {r : HamtNode T}, Inv Hash Equal r level →
      Unites Hash Equal level [] r.elements r := fun hr => unites_nil hEqual hr
  -- a bucket is the same at every level
  have hlevels : ∀ {v : T} {n : List T} {level : ℕ}, Inv Hash Equal (.leaf v n) level →
      ∀ level', Inv Hash Equal (.leaf v n) level' := fun h _ => h
  induction l with
  | null =>
      intro r level _ _ hr _
      refine ⟨r, ?_, hempty hr⟩
      cases r <;> rfl
  | leaf v n =>
      intro r level hlevel hl hr hpath
      cases r with
      | null => exact ⟨_, rfl, (hempty hl).comm⟩
      | leaf w m =>
          rw [merge]
          split_ifs with hobject
          · obtain ⟨rfl, rfl⟩ := HamtNode.leaf.inj (hsame _ _ hobject)
            exact ⟨_, rfl, hself hl⟩
          · obtain ⟨x, hx, hunites⟩ := insertLeaf_unites hEqual hsame (hlevels hl) _ level hlevel hr
              fun y hy k hk => hpath v List.mem_cons_self y hy k hk
            exact ⟨x, hx, hunites.comm⟩
          · exact fun h => absurd h nofun
      | branch data =>
          rw [merge]
          split_ifs with hobject
          · exact absurd (hsame _ _ hobject) nofun
          · obtain ⟨x, hx, hunites⟩ := insertLeaf_unites hEqual hsame (hlevels hl) _ level hlevel hr
              fun y hy k hk => hpath v List.mem_cons_self y hy k hk
            exact ⟨x, hx, hunites.comm⟩
          · exact fun h => absurd h nofun
  | branch data ih =>
      intro r level hlevel hl hr hpath
      cases r with
      | null => exact ⟨_, rfl, (hempty hl).comm⟩
      | leaf w m =>
          exact insertLeaf_unites hEqual hsame (hlevels hr) _ level hlevel hl
            fun y hy k hk => (hpath y hy w List.mem_cons_self k hk).symm
      | branch data' =>
          rw [merge]
          split_ifs with hobject
          · obtain rfl := HamtNode.branch.inj (hsame _ _ hobject)
            exact ⟨_, rfl, hself hl⟩
          · have hchild : ∀ i, ∃ m, merge Hash Equal same (data i) (data' i) (level + 1) = some m ∧
                Unites Hash Equal (level + 1) (data i).elements (data' i).elements m := by
              intro i
              refine ih i (data' i) (level + 1) (by have := hl.1; omega) (hl.2 i).1 (hr.2 i).1
                fun y hy z hz k hk => ?_
              rcases Nat.lt_succ_iff_lt_or_eq.1 hk with hk | rfl
              · exact hpath y (mem_elements_branch.2 ⟨i, hy⟩) z (mem_elements_branch.2 ⟨i, hz⟩) k hk
              · rw [(hl.2 i).2 y hy, (hr.2 i).2 z hz]
            choose children hmerge hunites using hchild
            refine ⟨.branch children, by rw [sequence_eq_some hmerge]; rfl, ⟨hl.1, fun i => ?_⟩,
              fun y hy => ?_, ?_⟩
            · refine ⟨(hunites i).inv, fun y hy => ?_⟩
              rcases (hunites i).subset y hy with hy | hy
              · exact (hl.2 i).2 y hy
              · exact (hr.2 i).2 y hy
            · obtain ⟨i, hi⟩ := mem_elements_branch.1 hy
              exact ((hunites i).subset y hi).imp (fun hy => mem_elements_branch.2 ⟨i, hy⟩)
                fun hy => mem_elements_branch.2 ⟨i, hy⟩
            · rintro y (hy | hy) <;> obtain ⟨i, hi⟩ := mem_elements_branch.1 hy
              · obtain ⟨z, hz, heq⟩ := (hunites i).covers y (Or.inl hi)
                exact ⟨z, mem_elements_branch.2 ⟨i, hz⟩, heq⟩
              · obtain ⟨z, hz, heq⟩ := (hunites i).covers y (Or.inr hi)
                exact ⟨z, mem_elements_branch.2 ⟨i, hz⟩, heq⟩

/-! ## Look-up -/

theorem mem_seekBucket (n : HamtNode T) (h : BitVec 32) :
    ∀ level, ∀ y ∈ seekBucket n level h, y ∈ n.elements := by
  induction n with
  | null => exact fun _ _ hy => hy
  | leaf v n => exact fun _ _ hy => hy
  | branch data ih =>
      intro level y hy
      exact mem_elements_branch.2 ⟨_, ih _ (level + 1) y hy⟩

theorem mem_seekBucket_of_mem (n : HamtNode T) :
    ∀ level, Inv Hash Equal n level → ∀ y ∈ n.elements,
      y ∈ seekBucket n level (hash Hash y) := by
  induction n with
  | null => exact fun _ _ _ hy => hy
  | leaf v n => exact fun _ _ _ hy => hy
  | branch data ih =>
      intro level hinv y hy
      obtain ⟨i, hi⟩ := mem_elements_branch.1 hy
      rw [seekBucket, (hinv.2 i).2 y hi]
      exact ih i (level + 1) (hinv.2 i).1 y hi

include hHash in
/-- `count` finds the elements that are equal to the value. -/
theorem count_iff {n : HamtNode T} (hinv : Inv Hash Equal n 0) (x : T) :
    count Hash Equal n x = true ↔ ∃ y ∈ n.elements, Equal y x = true := by
  rw [count, List.any_eq_true]
  constructor
  · rintro ⟨y, hy, heq⟩
    exact ⟨y, mem_seekBucket n _ 0 y hy, heq⟩
  · rintro ⟨y, hy, heq⟩
    refine ⟨y, ?_, heq⟩
    rw [← hash_eq_of_equal hHash heq]
    exact mem_seekBucket_of_mem n 0 hinv y hy

end Proofs

/-! ## Versions -/

/-- An operation on versions of a set; a version that does not exist is the empty set. -/
inductive Op (T : Type) where
  | insert (version : ℕ) (value : T)
  | erase (version : ℕ) (value : T)
  | unite (left right : ℕ)

section Runs

variable {T : Type} (Hash : T → BitVec 64) (Equal : T → T → Bool)
  (same : ℕ → HamtNode T → HamtNode T → Bool)

/-- The root of the new version.  The objects of every operation are compared in their own way. -/
def Op.root (versions : List (HamtNode T)) : Op T → Option (HamtNode T)
  | .insert i value =>
    Hamt.insert Hash Equal (same versions.length) value 16 (versions.getD i .null) 0
  | .erase i value =>
    some (Hamt.erase Hash Equal (same versions.length) value (versions.getD i .null) 0)
  | .unite l r =>
    merge Hash Equal (same versions.length) (versions.getD l .null) (versions.getD r .null) 0

/-- A run: every operation adds a version. -/
def runAll : List (Op T) → List (HamtNode T) → Option (List (HamtNode T))
  | [], versions => some versions
  | op :: ops, versions =>
    (op.root Hash Equal same versions).bind fun root => runAll ops (versions ++ [root])

/-- The new set. -/
def Op.toSet (sets : List (Set T)) : Op T → Set T
  | .insert i value => {x | x ∈ sets.getD i ∅ ∨ Equal value x = true}
  | .erase i value => {x | x ∈ sets.getD i ∅ ∧ Equal value x = false}
  | .unite l r => sets.getD l ∅ ∪ sets.getD r ∅

/-- The sets that a run stands for. -/
def setsAll : List (Op T) → List (Set T) → List (Set T)
  | [], sets => sets
  | op :: ops, sets => setsAll ops (sets ++ [op.toSet Equal sets])

/-- A root stands for a set. -/
structure Represents (root : HamtNode T) (S : Set T) : Prop where
  inv : Inv Hash Equal root 0
  mem_iff : ∀ x, x ∈ S ↔ ∃ y ∈ root.elements, Equal y x = true

variable {Hash Equal same}

theorem represents_getD {versions : List (HamtNode T)} {sets : List (Set T)}
    (h : List.Forall₂ (Represents Hash Equal) versions sets) (i : ℕ) :
    Represents Hash Equal (versions.getD i .null) (sets.getD i ∅) := by
  induction h generalizing i with
  | nil => exact ⟨trivial, fun x => iff_of_false id fun ⟨_, hy, _⟩ => List.not_mem_nil hy⟩
  | cons hhead _ ih =>
      cases i with
      | zero => exact hhead
      | succ i => exact ih i

/-- **One operation** has a result, and its root stands for the new set. -/
theorem represents_root (hEqual : Equivalence fun a b => Equal a b = true)
    (hHash : ∀ a b, Equal a b = true → Hash a = Hash b)
    (hsame : ∀ k a b, same k a b = true → a = b)
    {versions : List (HamtNode T)} {sets : List (Set T)}
    (h : List.Forall₂ (Represents Hash Equal) versions sets) (op : Op T) :
    ∃ root, op.root Hash Equal same versions = some root ∧
      Represents Hash Equal root (op.toSet Equal sets) := by
  cases op with
  | insert i value =>
      have hi := represents_getD h i
      obtain ⟨r, hr, hunites⟩ := insert_unites hEqual (hsame versions.length) value 16
        (versions.getD i .null) 0 (by decide) hi.inv
        (fun _ _ k hk => absurd hk (Nat.not_lt_zero k)) (by omega)
      refine ⟨r, hr, hunites.inv, fun x => ?_⟩
      constructor
      · rintro (hx | hx)
        · obtain ⟨y, hy, hyx⟩ := (hi.mem_iff x).1 hx
          obtain ⟨z, hz, hzy⟩ := hunites.covers y (Or.inl hy)
          exact ⟨z, hz, hEqual.trans hzy hyx⟩
        · obtain ⟨z, hz, hzy⟩ := hunites.covers value (Or.inr (List.mem_singleton_self value))
          exact ⟨z, hz, hEqual.trans hzy hx⟩
      · rintro ⟨y, hy, hyx⟩
        rcases hunites.subset y hy with hy | hy
        · exact Or.inl ((hi.mem_iff x).2 ⟨y, hy, hyx⟩)
        · exact Or.inr (List.mem_singleton.1 hy ▸ hyx)
  | erase i value =>
      have hi := represents_getD h i
      obtain ⟨hinv, helements⟩ := inv_erase hEqual hHash (hsame versions.length) value
        (versions.getD i .null) 0 hi.inv
      refine ⟨_, rfl, hinv, fun x => ?_⟩
      rw [helements]
      have hiff : ∀ y, Equal y x = true → (Equal y value = false ↔ Equal value x = false) := by
        intro y hyx
        rw [← Bool.not_eq_true, ← Bool.not_eq_true, not_iff_not]
        exact ⟨fun hyv => hEqual.trans (hEqual.symm hyv) hyx,
          fun hvx => hEqual.trans hyx (hEqual.symm hvx)⟩
      constructor
      · rintro ⟨hx, hne⟩
        obtain ⟨y, hy, hyx⟩ := (hi.mem_iff x).1 hx
        exact ⟨y, List.mem_filter.2 ⟨hy, by rw [(hiff y hyx).2 hne]; rfl⟩, hyx⟩
      · rintro ⟨y, hy, hyx⟩
        obtain ⟨hy, hne⟩ := List.mem_filter.1 hy
        exact ⟨(hi.mem_iff x).2 ⟨y, hy, hyx⟩, (hiff y hyx).1 (by simpa using hne)⟩
  | unite l r =>
      have hl := represents_getD h l
      have hr := represents_getD h r
      obtain ⟨m, hm, hunites⟩ := merge_unites hEqual (hsame versions.length)
        (versions.getD l .null) (versions.getD r .null) 0 (by decide) hl.inv hr.inv
        fun _ _ _ _ k hk => absurd hk (Nat.not_lt_zero k)
      refine ⟨m, hm, hunites.inv, fun x => ?_⟩
      show x ∈ sets.getD l ∅ ∪ sets.getD r ∅ ↔ _
      rw [Set.mem_union, hl.mem_iff, hr.mem_iff]
      constructor
      · rintro (⟨y, hy, hyx⟩ | ⟨y, hy, hyx⟩)
        · obtain ⟨z, hz, hzy⟩ := hunites.covers y (Or.inl hy)
          exact ⟨z, hz, hEqual.trans hzy hyx⟩
        · obtain ⟨z, hz, hzy⟩ := hunites.covers y (Or.inr hy)
          exact ⟨z, hz, hEqual.trans hzy hyx⟩
      · rintro ⟨y, hy, hyx⟩
        exact (hunites.subset y hy).imp (fun hy => ⟨y, hy, hyx⟩) fun hy => ⟨y, hy, hyx⟩

/-- A run keeps the versions there are and adds new ones. -/
theorem runAll_represents (hEqual : Equivalence fun a b => Equal a b = true)
    (hHash : ∀ a b, Equal a b = true → Hash a = Hash b)
    (hsame : ∀ k a b, same k a b = true → a = b) (ops : List (Op T)) :
    ∀ {versions : List (HamtNode T)} {sets : List (Set T)},
      List.Forall₂ (Represents Hash Equal) versions sets →
      ∃ new, runAll Hash Equal same ops versions = some (versions ++ new) ∧
        List.Forall₂ (Represents Hash Equal) (versions ++ new) (setsAll Equal ops sets) := by
  induction ops with
  | nil => exact fun {versions _} h => ⟨[], by rw [List.append_nil]; rfl, by rwa [List.append_nil]⟩
  | cons op ops ih =>
      intro versions sets h
      obtain ⟨root, hroot, hrep⟩ := represents_root hEqual hHash hsame h op
      obtain ⟨new, hrun, hnew⟩ := ih (List.rel_append h (.cons hrep .nil))
      rw [List.append_assoc] at hrun hnew
      exact ⟨[root] ++ new, by rw [runAll, hroot, Option.bind_some, hrun], hnew⟩

theorem runAll_append (ops more : List (Op T)) (versions : List (HamtNode T)) :
    runAll Hash Equal same (ops ++ more) versions =
      (runAll Hash Equal same ops versions).bind fun v => runAll Hash Equal same more v := by
  induction ops generalizing versions with
  | nil => rfl
  | cons op ops ih =>
      rw [List.cons_append, runAll, runAll, Option.bind_assoc]
      exact Option.bind_congr fun root _ => ih (versions ++ [root])

/-- **The versions of a run stand for its sets**: every operation has a result, `count` tells the
members, `foreach` visits each member exactly once up to equality, and no later operation changes a
version. -/
theorem versions_refine_sets (hEqual : Equivalence fun a b => Equal a b = true)
    (hHash : ∀ a b, Equal a b = true → Hash a = Hash b)
    (hsame : ∀ k a b, same k a b = true → a = b) (ops : List (Op T)) :
    ∃ versions, runAll Hash Equal same ops [.null] = some versions ∧
      versions.length = (setsAll Equal ops [∅]).length ∧
      (∀ i x, count Hash Equal (versions.getD i .null) x = true ↔
        x ∈ (setsAll Equal ops [∅]).getD i ∅) ∧
      (∀ i, Distinct Equal (versions.getD i .null).elements ∧
        ∀ x, x ∈ (setsAll Equal ops [∅]).getD i ∅ ↔
          ∃ y ∈ (versions.getD i .null).elements, Equal y x = true) ∧
      ∀ more, ∃ new, runAll Hash Equal same (ops ++ more) [.null] = some (versions ++ new) := by
  have hempty : List.Forall₂ (Represents Hash Equal) [HamtNode.null] [(∅ : Set T)] :=
    .cons ⟨trivial, fun x => iff_of_false id fun ⟨_, hy, _⟩ => List.not_mem_nil hy⟩ .nil
  obtain ⟨new, hrun, hrep⟩ := runAll_represents hEqual hHash hsame ops hempty
  refine ⟨_, hrun, hrep.length_eq, fun i x => ?_, fun i => ⟨?_, ?_⟩, fun more => ?_⟩
  · have hi := represents_getD hrep i
    rw [count_iff hHash hi.inv, hi.mem_iff]
  · exact distinct_elements hHash _ 0 (represents_getD hrep i).inv
  · exact (represents_getD hrep i).mem_iff
  · obtain ⟨later, hlater, -⟩ := runAll_represents hEqual hHash hsame more hrep
    exact ⟨later, by rw [runAll_append, hrun, Option.bind_some, hlater]⟩

end Runs

/-- The union of `{3}` and `{4}`, whose elements have one hash, contains 4. -/
theorem versions_refine_two :
    ∃ versions, runAll (fun _ : ℕ => 0) (fun a b => decide (a = b)) (fun _ _ _ => false)
      [.insert 0 3, .insert 0 4, .unite 1 2] [.null] = some versions ∧
      count (fun _ : ℕ => 0) (fun a b => decide (a = b)) (versions.getD 3 .null) 4 = true := by
  obtain ⟨versions, hrun, -, hcount, -⟩ := @versions_refine_sets ℕ (fun _ => 0)
    (fun a b => decide (a = b)) (fun _ _ _ => false)
    ⟨fun _ => decide_eq_true rfl, fun h => decide_eq_true (of_decide_eq_true h).symm,
      fun h h' => decide_eq_true ((of_decide_eq_true h).trans (of_decide_eq_true h'))⟩
    (fun _ _ _ => rfl) (fun _ _ _ h => absurd h Bool.false_ne_true)
    [.insert 0 3, .insert 0 4, .unite 1 2]
  refine ⟨versions, hrun, (hcount 3 4).2 ?_⟩
  exact Or.inr (Or.inr (decide_eq_true rfl))

end Hamt

end Borealis
