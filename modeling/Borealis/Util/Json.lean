import Mathlib.Data.BitVec
import Mathlib.Data.List.Nodup
import Mathlib.Data.List.TakeWhile
import Mathlib.Tactic.Linarith

/-!
# JSON values and their traits

`json::Value` and `ValueBuilder` of `Util/json.hpp`, the traits of `Util/json_traits.hpp` and
`Util/indexed_string.hpp`, and those of enumerations.  A C++ type is one of the types that have
traits, and `Data` are its values.  A set or a map is the list of what is in it, in the order of its
iteration.

A decoder returns a null pointer where it does not find what it expects, and reads through one where
it does not check; both are kept apart from a value (`Decoded`).

## Strategy

`Faithful` says which values their own decoder finds again.  It follows the type, and so do the
proofs: a loop over encoded elements gives the elements back when each of them is faithful, and a
container of another size otherwise (`decodeAll_eq_iff`).  The events of a value rebuild it when
its sizes fit the parser's type for them (`replay_accept`).
-/

namespace Borealis

namespace JsonTraits

/-! ## Values -/

/-- The contents of a string. -/
abbrev Bytes := List UInt8

/-- `json::Value`, without floating point.  A `cstring` is a string that another owns. -/
inductive Value
  | null
  | boolean (value : Bool)
  | signedInt (value : BitVec 64)
  | unsignedInt (value : BitVec 64)
  | string (value : Bytes)
  | array (elements : List Value)
  | object (fields : List (Bytes × Value))

namespace Value

/-- `push_back`; the assertion of `ensureArray` leaves the value as it is. -/
def pushBack : Value → Value → Value
  | .array elements, v => .array (elements ++ [v])
  | .null, v => .array [v]
  | this, _ => this

/-- An assignment to a key of a map. -/
def insertField (key : Bytes) (value : Value) (fields : List (Bytes × Value)) :
    List (Bytes × Value) :=
  (key, value) :: fields.filter fun field => field.1 ≠ key

/-- An assignment to `operator[](const char*)`. -/
def setField (key : Bytes) (value : Value) : Value → Value
  | .object fields => .object (insertField key value fields)
  | .null => .object [(key, value)]
  | this => this

/-- `operator[](const char*) const` of an object. -/
def field (key : Bytes) (fields : List (Bytes × Value)) : Value :=
  ((fields.find? fun field => field.1 = key).map Prod.snd).getD .null

/-- `isBool` and `asBool`. -/
def asBool : Value → Option Bool
  | .boolean value => some value
  | _ => none

/-- `isInteger` and `asInt`. -/
def asInt : Value → Option (BitVec 32)
  | .signedInt value => some (value.setWidth 32)
  | .unsignedInt value => some (value.setWidth 32)
  | _ => none

/-- `isInteger` and `asUnsignedInt`. -/
def asUnsignedInt : Value → Option (BitVec 32)
  | .signedInt value => some (value.setWidth 32)
  | .unsignedInt value => some (value.setWidth 32)
  | _ => none

/-- `isString` and `asString`. -/
def asString : Value → Option Bytes
  | .string value => some value
  | _ => none

/-- `isString` and what a reader of `asCString` sees. -/
def asCString (v : Value) : Option Bytes :=
  v.asString.map fun value => value.takeWhile (· ≠ 0)

end Value

/-! ## Types -/

/-- The types with traits.  An enumeration is the list of the texts of its values. -/
inductive Ty
  | bool
  | signed (width : ℕ)
  | unsigned (width : ℕ)
  | string
  | indexedString
  | enum (names : List Bytes) (distinct : names.Nodup)
  | vector (element : Ty)
  | set (element : Ty)
  | unorderedMap (key value : Ty)
  | pair (first second : Ty)

/-- The values of a type. -/
@[reducible]
def Data : Ty → Type
  | .bool => Bool
  | .signed width => BitVec width
  | .unsigned width => BitVec width
  | .string => Bytes
  | .indexedString => Bytes
  | .enum names _ => Fin names.length
  | .vector element => List (Data element)
  | .set element => { elements : List (Data element) // elements.Nodup }
  | .unorderedMap key value =>
      { entries : List (Data key × Data value) // (entries.map Prod.fst).Nodup }
  | .pair first second => Data first × Data second

/-- `operator==` of the types. -/
def Data.decEq : (t : Ty) → DecidableEq (Data t)
  | .bool => inferInstanceAs (DecidableEq Bool)
  | .signed width => inferInstanceAs (DecidableEq (BitVec width))
  | .unsigned width => inferInstanceAs (DecidableEq (BitVec width))
  | .string => inferInstanceAs (DecidableEq Bytes)
  | .indexedString => inferInstanceAs (DecidableEq Bytes)
  | .enum names _ => inferInstanceAs (DecidableEq (Fin names.length))
  | .vector element =>
      have := Data.decEq element
      inferInstanceAs (DecidableEq (List (Data element)))
  | .set element =>
      have := Data.decEq element
      inferInstanceAs (DecidableEq { elements : List (Data element) // elements.Nodup })
  | .unorderedMap key value =>
      have := Data.decEq key
      have := Data.decEq value
      inferInstanceAs (DecidableEq
        { entries : List (Data key × Data value) // (entries.map Prod.fst).Nodup })
  | .pair first second =>
      have := Data.decEq first
      have := Data.decEq second
      inferInstanceAs (DecidableEq (Data first × Data second))

instance (t : Ty) : DecidableEq (Data t) := Data.decEq t

/-! ## Writers -/

/-- The two keys of an entry of a map. -/
def keyText : Bytes := [107, 101, 121]

def valueText : Bytes := [118, 97, 108, 117, 101]

/-- `toJson`. -/
def toJson : (t : Ty) → Data t → Value
  | .bool, b => .boolean b
  | .signed _, i => .signedInt (i.signExtend 64)
  | .unsigned _, i => .unsignedInt (i.setWidth 64)
  | .string, s => .string s
  | .indexedString, s => .string s
  | .enum names _, i => .string names[i]
  | .vector element, v => v.foldl (fun ret m => ret.pushBack (toJson element m)) (.array [])
  | .set element, v => v.1.foldl (fun ret m => ret.pushBack (toJson element m)) (.array [])
  | .unorderedMap key value, v => v.1.foldl (fun ret kv =>
      ret.pushBack (Value.setField valueText (toJson value kv.2)
        (Value.setField keyText (toJson key kv.1) .null))) .null
  | .pair first second, v =>
      (Value.null.pushBack (toJson first v.1)).pushBack (toJson second v.2)

/-! ## Readers -/

/-- What a decoder does: it reads through a null pointer, returns one, or returns a value. -/
inductive Decoded (α : Type)
  | fault
  | nullptr
  | value (v : α)

/-- A null pointer where there is nothing. -/
def Decoded.ofOption {α : Type} : Option α → Decoded α
  | none => .nullptr
  | some v => .value v

/-- The loop of the containers. -/
def decodeAll {α β : Type} (decode : Value → Decoded α) (append : β → α → β) :
    List Value → β → Decoded β
  | [], ret => .value ret
  | m :: rest, ret =>
      match decode m with
      | .fault => .fault
      | .nullptr => .nullptr
      | .value v => decodeAll decode append rest (append ret v)

/-- `insert` into a set. -/
def insertElement {α : Type} [DecidableEq α] (ret : { elements : List α // elements.Nodup }) (v : α) :
    { elements : List α // elements.Nodup } :=
  if h : v ∈ ret.1 then ret
  else ⟨ret.1 ++ [v], List.nodup_append.mpr ⟨ret.2, List.nodup_singleton v, by
    intro a ha b hb heq
    exact h (by rwa [← List.mem_singleton.mp hb, ← heq])⟩⟩

/-- `insert` into a map. -/
def insertEntry {α β : Type} [DecidableEq α]
    (ret : { entries : List (α × β) // (entries.map Prod.fst).Nodup }) (kv : α × β) :
    { entries : List (α × β) // (entries.map Prod.fst).Nodup } :=
  if h : kv.1 ∈ ret.1.map Prod.fst then ret
  else ⟨ret.1 ++ [kv], by
    rw [List.map_append, List.nodup_append]
    refine ⟨ret.2, List.nodup_singleton _, ?_⟩
    intro a ha b hb heq
    exact h (by rwa [← List.mem_singleton.mp hb, ← heq])⟩

/-- An entry of a map; the pointers to its key and its value are read through at once. -/
def decodeEntry {α β : Type} (decodeKey : Value → Decoded α) (decodeValue : Value → Decoded β) :
    Value → Decoded (α × β)
  | .object fields =>
      match decodeKey (Value.field keyText fields), decodeValue (Value.field valueText fields) with
      | .value k, .value v => .value (k, v)
      | _, _ => .fault
  | _ => .nullptr

/-- `fromJson`. -/
def fromJson : (t : Ty) → Value → Decoded (Data t)
  | .bool, json => .ofOption json.asBool
  | .signed width, json => .ofOption (json.asInt.map fun i => i.signExtend width)
  | .unsigned width, json => .ofOption (json.asUnsignedInt.map fun i => i.setWidth width)
  | .string, json => .ofOption json.asString
  | .indexedString, json => .ofOption json.asCString
  | .enum names _, json => .ofOption (json.asString.bind fun s => names.finIdxOf? s)
  | .vector element, json =>
      match json with
      | .array elements => decodeAll (fromJson element) (fun ret v => ret ++ [v]) elements []
      | _ => .nullptr
  | .set element, json =>
      match json with
      | .array elements => decodeAll (fromJson element) insertElement elements
          ⟨[], List.nodup_nil⟩
      | _ => .nullptr
  | .unorderedMap key value, json =>
      match json with
      | .array elements => decodeAll (decodeEntry (fromJson key) (fromJson value)) insertEntry
          elements ⟨[], List.nodup_nil⟩
      | _ => .nullptr
  | .pair first second, json =>
      match json with
      | .array [a, b] =>
          match fromJson first a, fromJson second b with
          | .fault, _ => .fault
          | _, .fault => .fault
          | .value v, .value w => .value (v, w)
          | _, _ => .nullptr
      | _ => .nullptr

/-! ## What a loop decodes -/

/-- An append adds an element at the end or leaves it out, and adds it where the result is `ok`. -/
structure Appends {α β : Type} (append : β → α → β) (contents : β → List α)
    (ok : List α → Prop) : Prop where
  injective : Function.Injective contents
  left : ∀ l m, ok (l ++ m) → ok l
  appends : ∀ ret x, ok (contents ret ++ [x]) → contents (append ret x) = contents ret ++ [x]
  cases : ∀ ret x, contents (append ret x) = contents ret ++ [x] ∨
    contents (append ret x) = contents ret

section Loops

variable {α β : Type} {decode : Value → Decoded α} {encode : α → Value} {append : β → α → β}
  {contents : β → List α} {ok : List α → Prop}

/-- A loop keeps what is there, and adds at most an element each time. -/
theorem decodeAll_prefix (happends : Appends append contents ok) {elements : List Value}
    {ret r : β} (h : decodeAll decode append elements ret = .value r) :
    contents ret <+: contents r ∧
      (contents r).length ≤ (contents ret).length + elements.length := by
  induction elements generalizing ret with
  | nil =>
      cases h
      exact ⟨List.prefix_refl _, le_rfl⟩
  | cons m elements ih =>
      rw [decodeAll] at h
      split at h
      · cases h
      · cases h
      · next v _ =>
          obtain ⟨hstart, hlength⟩ := ih h
          rw [List.length_cons]
          rcases happends.cases ret v with hv | hv
          · rw [hv] at hstart hlength
            rw [List.length_append, List.length_singleton] at hlength
            exact ⟨(List.prefix_append _ _).trans hstart, by omega⟩
          · rw [hv] at hstart hlength
            exact ⟨hstart, by omega⟩

/-- **A loop gives the elements back exactly when the decoder gives each of them back.** -/
theorem decodeAll_eq_iff (happends : Appends append contents ok) {l : List α} {ret r : β}
    (hr : contents r = contents ret ++ l) (hok : ok (contents r)) :
    decodeAll decode append (l.map encode) ret = .value r ↔
      ∀ x ∈ l, decode (encode x) = .value x := by
  induction l generalizing ret with
  | nil =>
      rw [List.append_nil] at hr
      rw [happends.injective hr]
      exact iff_of_true rfl fun x hx => absurd hx List.not_mem_nil
  | cons x l ih =>
      rw [List.map_cons, decodeAll, List.forall_mem_cons]
      rw [List.append_cons] at hr
      have hnext : contents (append ret x) = contents ret ++ [x] :=
        happends.appends ret x (happends.left _ l (hr ▸ hok))
      cases hdecode : decode (encode x) with
      | fault => simp
      | nullptr => simp
      | value y =>
          constructor
          · intro h
            obtain ⟨hstart, hlength⟩ := decodeAll_prefix happends h
            have hy : contents (append ret y) = contents ret ++ [y] := by
              refine (happends.cases ret y).resolve_right fun hy => ?_
              rw [hy, hr] at hlength
              simp at hlength
            rw [hy, hr, List.append_assoc, List.prefix_append_right_inj, List.singleton_append,
              List.cons_prefix_cons] at hstart
            obtain ⟨rfl, -⟩ := hstart
            exact ⟨rfl, (ih (by rw [hnext, hr])).mp h⟩
          · rintro ⟨heq, hrest⟩
            cases heq
            exact (ih (by rw [hnext, hr])).mpr hrest

end Loops

theorem appends_vector {α : Type} :
    Appends (fun (ret : List α) v => ret ++ [v]) id fun _ => True where
  injective := Function.injective_id
  left _ _ _ := trivial
  appends _ _ _ := rfl
  cases _ _ := Or.inl rfl

theorem appends_insertElement {α : Type} [DecidableEq α] :
    Appends (insertElement (α := α)) Subtype.val List.Nodup where
  injective := Subtype.val_injective
  left _ _ h := List.Nodup.of_append_left h
  appends ret x h := by
    rw [insertElement, dif_neg]
    intro hx
    exact (List.disjoint_of_nodup_append h) hx List.mem_cons_self
  cases ret x := by
    by_cases h : x ∈ ret.1
    · exact Or.inr (by rw [insertElement, dif_pos h])
    · exact Or.inl (by rw [insertElement, dif_neg h])

theorem appends_insertEntry {α β : Type} [DecidableEq α] :
    Appends (insertEntry (α := α) (β := β)) Subtype.val fun l => (l.map Prod.fst).Nodup where
  injective := Subtype.val_injective
  left l m h := by
    rw [List.map_append] at h
    exact List.Nodup.of_append_left h
  appends ret x h := by
    rw [insertEntry, dif_neg]
    intro hx
    rw [List.map_append] at h
    exact (List.disjoint_of_nodup_append h) hx List.mem_cons_self
  cases ret x := by
    by_cases h : x.1 ∈ ret.1.map Prod.fst
    · exact Or.inr (by rw [insertEntry, dif_pos h])
    · exact Or.inl (by rw [insertEntry, dif_neg h])

/-! ## What a writer makes -/

theorem foldl_pushBack {α : Type} (encode : α → Value) (l : List α) (elements : List Value) :
    l.foldl (fun (ret : Value) m => ret.pushBack (encode m)) (.array elements) =
      .array (elements ++ l.map encode) := by
  induction l generalizing elements with
  | nil => rw [List.foldl_nil, List.map_nil, List.append_nil]
  | cons m l ih =>
      rw [List.foldl_cons, Value.pushBack, ih, List.map_cons, List.append_assoc,
        List.singleton_append]

/-- A loop that starts from null makes an array only if there is an element. -/
theorem foldl_pushBack_null {α : Type} (encode : α → Value) (l : List α) :
    l.foldl (fun (ret : Value) m => ret.pushBack (encode m)) .null =
      match l with
      | [] => .null
      | _ => .array (l.map encode) := by
  cases l with
  | nil => rfl
  | cons m l =>
      rw [List.foldl_cons, Value.pushBack, foldl_pushBack, List.map_cons, List.singleton_append]

/-- An entry of a map. -/
def encodeEntry {α β : Type} (encodeKey : α → Value) (encodeValue : β → Value) (kv : α × β) :
    Value :=
  Value.setField valueText (encodeValue kv.2) (Value.setField keyText (encodeKey kv.1) .null)

theorem encodeEntry_eq {α β : Type} (encodeKey : α → Value) (encodeValue : β → Value)
    (kv : α × β) : encodeEntry encodeKey encodeValue kv =
      .object [(valueText, encodeValue kv.2), (keyText, encodeKey kv.1)] := by
  have hne : valueText ≠ keyText := by decide
  simp [encodeEntry, Value.setField, Value.insertField, hne.symm]

theorem decodeEntry_encodeEntry {α β : Type} {decodeKey : Value → Decoded α}
    {decodeValue : Value → Decoded β} {encodeKey : α → Value} {encodeValue : β → Value}
    {kv : α × β} :
    decodeEntry decodeKey decodeValue (encodeEntry encodeKey encodeValue kv) = .value kv ↔
      decodeKey (encodeKey kv.1) = .value kv.1 ∧ decodeValue (encodeValue kv.2) = .value kv.2 := by
  have hne : valueText ≠ keyText := by decide
  have hkey : Value.field keyText [(valueText, encodeValue kv.2), (keyText, encodeKey kv.1)] =
      encodeKey kv.1 := by
    simp [Value.field, hne]
  have hvalue : Value.field valueText [(valueText, encodeValue kv.2), (keyText, encodeKey kv.1)] =
      encodeValue kv.2 := by
    simp [Value.field]
  rw [encodeEntry_eq, decodeEntry, hkey, hvalue]
  obtain ⟨k, w⟩ := kv
  cases decodeKey (encodeKey k) <;> cases decodeValue (encodeValue w) <;> simp

/-! ## Integers -/

theorem setWidth_signExtend {width u v : ℕ} (x : BitVec width) (h : u ≤ v) :
    (x.signExtend v).setWidth u = x.signExtend u := by
  ext i hi
  rw [BitVec.getElem_setWidth, BitVec.getLsbD_signExtend, BitVec.getElem_signExtend]
  by_cases hw : i < width <;> simp [hi.trans_le h, hw]

theorem signExtend_asInt_iff {width : ℕ} (i : BitVec width) :
    ((i.signExtend 64).setWidth 32).signExtend width = i ↔
      -2 ^ 31 ≤ i.toInt ∧ i.toInt < 2 ^ 31 := by
  rw [setWidth_signExtend i (by omega : 32 ≤ 64)]
  rcases Nat.le_total width 32 with hle | hge
  · -- the cast to `int` loses nothing
    rw [BitVec.signExtend_eq_setWidth_of_le _ hle, setWidth_signExtend i hle,
      BitVec.signExtend_eq]
    have hpow : (2 : ℤ) ^ width ≤ 2 ^ 32 := pow_le_pow_right₀ (by omega) hle
    have hlow := BitVec.le_two_mul_toInt (x := i)
    have hhigh := BitVec.two_mul_toInt_lt (x := i)
    exact iff_of_true rfl ⟨by omega, by omega⟩
  · rw [← BitVec.toInt_inj, BitVec.toInt_signExtend_of_le hge, BitVec.toInt_signExtend,
      min_eq_left hge]
    have hrange := Int.bmod_lt (x := i.toInt) (m := 2 ^ 32) (by omega)
    have hrange' := Int.le_bmod (x := i.toInt) (m := 2 ^ 32) (by omega)
    constructor
    · intro h
      rw [h] at hrange hrange'
      omega
    · rintro ⟨hlow, hhigh⟩
      apply Int.bmod_eq_of_le <;> omega

theorem setWidth_asUnsignedInt_iff {width : ℕ} (i : BitVec width) :
    ((i.setWidth 64).setWidth 32).setWidth width = i ↔ i.toNat < 2 ^ 32 := by
  rw [← BitVec.toNat_inj, BitVec.toNat_setWidth, BitVec.toNat_setWidth, BitVec.toNat_setWidth,
    Nat.mod_mod_of_dvd _ (Nat.pow_dvd_pow 2 (by omega : 32 ≤ 64))]
  constructor
  · intro h
    rw [← h]
    exact (Nat.mod_le _ _).trans_lt (Nat.mod_lt _ (Nat.two_pow_pos 32))
  · intro h
    rw [Nat.mod_eq_of_lt h, Nat.mod_eq_of_lt i.isLt]

/-! ## Round trips -/

/-- The values that their decoder finds again. -/
def Faithful : (t : Ty) → Data t → Prop
  | .bool, _ => True
  | .signed _, i => -2 ^ 31 ≤ i.toInt ∧ i.toInt < 2 ^ 31
  | .unsigned _, i => i.toNat < 2 ^ 32
  | .string, _ => True
  | .indexedString, s => 0 ∉ s
  | .enum _ _, _ => True
  | .vector element, v => ∀ x ∈ v, Faithful element x
  | .set element, v => ∀ x ∈ v.1, Faithful element x
  | .unorderedMap key value, v =>
      v.1 ≠ [] ∧ ∀ kv ∈ v.1, Faithful key kv.1 ∧ Faithful value kv.2
  | .pair first second, v => Faithful first v.1 ∧ Faithful second v.2

theorem decoded_value_inj {α : Type} {v w : α} : Decoded.value v = Decoded.value w ↔ v = w := by
  constructor
  · intro h
    cases h
    rfl
  · intro h
    rw [h]

/-- **Which values are decoded from what they are encoded to.** -/
theorem fromJson_toJson_eq_iff (t : Ty) (v : Data t) :
    fromJson t (toJson t v) = .value v ↔ Faithful t v := by
  induction t with
  | bool => exact iff_of_true rfl trivial
  | signed width =>
      exact decoded_value_inj.trans (signExtend_asInt_iff v)
  | unsigned width =>
      exact decoded_value_inj.trans (setWidth_asUnsignedInt_iff v)
  | string => exact iff_of_true rfl trivial
  | indexedString =>
      refine decoded_value_inj.trans ?_
      change v.takeWhile (· ≠ 0) = v ↔ 0 ∉ v
      rw [List.takeWhile_eq_self_iff]
      constructor
      · intro h hmem
        simpa using h 0 hmem
      · intro h x hx
        rw [decide_eq_true_iff]
        exact fun hzero => h (hzero ▸ hx)
  | enum names distinct =>
      refine iff_of_true ?_ trivial
      have hfind : names.finIdxOf? names[v] = some v := by
        rw [List.finIdxOf?_eq_some_iff]
        refine ⟨rfl, fun j hj heq => hj.ne ?_⟩
        exact List.nodup_iff_injective_get.mp distinct heq
      change Decoded.ofOption (names.finIdxOf? names[v]) = .value v
      rw [hfind, Decoded.ofOption]
  | vector element ih =>
      have hjson : toJson (.vector element) v = .array (v.map (toJson element)) := by
        rw [toJson, foldl_pushBack, List.nil_append]
      rw [hjson, fromJson, decodeAll_eq_iff appends_vector (List.nil_append v).symm trivial]
      exact forall₂_congr fun x _ => ih x
  | set element ih =>
      have hjson : toJson (.set element) v = .array (v.1.map (toJson element)) := by
        rw [toJson, foldl_pushBack, List.nil_append]
      rw [hjson, fromJson, decodeAll_eq_iff appends_insertElement (List.nil_append v.1).symm v.2]
      exact forall₂_congr fun x _ => ih x
  | unorderedMap key value ihk ihv =>
      have hjson := foldl_pushBack_null (encodeEntry (toJson key) (toJson value)) v.1
      change toJson (.unorderedMap key value) v = _ at hjson
      rw [hjson, Faithful]
      by_cases hnil : v.1 = []
      · rw [hnil]
        refine iff_of_false ?_ fun h => h.1 rfl
        intro h
        cases h
      · split
        · next h => exact absurd h hnil
        rw [fromJson,
          decodeAll_eq_iff appends_insertEntry (List.nil_append v.1).symm v.2, and_iff_right hnil]
        refine forall₂_congr fun kv _ => ?_
        rw [decodeEntry_encodeEntry, ihk, ihv]
  | pair first second ihf ihs =>
      obtain ⟨x, y⟩ := v
      have hjson : toJson (.pair first second) (x, y) =
          .array [toJson first x, toJson second y] := rfl
      rw [hjson, fromJson, Faithful, ← ihf, ← ihs]
      cases fromJson first (toJson first x) <;> cases fromJson second (toJson second y) <;>
        simp

/-! ## Events -/

/-- `rapidjson::SizeType`. -/
def sizeType (n : ℕ) : ℕ := n % 2 ^ 32

/-- The calls of a handler. -/
inductive Event
  | null
  | bool (b : Bool)
  | int (i : BitVec 32)
  | uint (i : BitVec 32)
  | int64 (i : BitVec 64)
  | uint64 (i : BitVec 64)
  | string (str : Bytes) (length : ℕ)
  | startObject
  | key (str : Bytes) (length : ℕ)
  | endObject (memberCount : ℕ)
  | startArray
  | endArray (elementCount : ℕ)

mutual

/-- `accept`. -/
def accept : Value → List Event
  | .null => [.null]
  | .boolean b => [.bool b]
  | .signedInt i =>
      if i.toInt > 2 ^ 31 - 1 ∨ i.toInt < -2 ^ 31 then [.int64 i] else [.int (i.setWidth 32)]
  | .unsignedInt i => if i.toNat > 2 ^ 32 - 1 then [.uint64 i] else [.uint (i.setWidth 32)]
  | .string s => [.string s (sizeType s.length)]
  | .array elements =>
      .startArray :: (acceptElements elements ++ [.endArray (sizeType elements.length)])
  | .object fields =>
      .startObject :: (acceptFields fields ++ [.endObject (sizeType fields.length)])

def acceptElements : List Value → List Event
  | [] => []
  | e :: elements => accept e ++ acceptElements elements

def acceptFields : List (Bytes × Value) → List Event
  | [] => []
  | e :: fields => .key e.1 (sizeType e.1.length) :: (accept e.2 ++ acceptFields fields)

end

/-- The loop of `EndObject`. -/
def popFields : ℕ → List Value → List (Bytes × Value) → Option (List (Bytes × Value) × List Value)
  | 0, stack, ret => some (ret, stack)
  | memberCount + 1, value :: key :: stack, ret =>
      match key.asString with
      | some key => popFields memberCount stack (Value.insertField key value ret)
      | none => none
  | _ + 1, _, _ => none

/-- The loop of `EndArray`, which is reversed at its end. -/
def popElements : ℕ → List Value → List Value → Option (List Value × List Value)
  | 0, stack, v => some (v, stack)
  | elementCount + 1, e :: stack, v => popElements elementCount stack (e :: v)
  | _ + 1, [], _ => none

/-- An assignment to `stack.top()`. -/
def setTop (value : Value) : List Value → Option (List Value)
  | [] => none
  | _ :: stack => some (value :: stack)

/-- The methods of `ValueBuilder`; nothing stands for false, and for the top of an empty stack. -/
def handle (stack : List Value) : Event → Option (List Value)
  | .null => some (.null :: stack)
  | .bool b => some (.boolean b :: stack)
  | .int i => some (.signedInt (i.signExtend 64) :: stack)
  | .uint i => some (.unsignedInt (i.setWidth 64) :: stack)
  | .int64 i => some (.signedInt i :: stack)
  | .uint64 i => some (.unsignedInt i :: stack)
  | .string str length => some (.string (str.take length) :: stack)
  | .key str length => some (.string (str.take length) :: stack)
  | .startObject => some (.null :: stack)
  | .startArray => some (.null :: stack)
  | .endObject memberCount => do
      let (ret, stack) ← popFields memberCount stack []
      setTop (.object ret) stack
  | .endArray elementCount => do
      let (v, stack) ← popElements elementCount stack []
      setTop (.array v) stack

/-- The calls one after the other, until one returns false. -/
def replay (events : List Event) (stack : List Value) : Option (List Value) :=
  events.foldlM handle stack

/-- The value of a builder that has got the events of a value. -/
def rebuild (json : Value) : Option Value :=
  (replay (accept json) []).bind List.head?

theorem replay_append (events others : List Event) (stack : List Value) :
    replay (events ++ others) stack = (replay events stack).bind (replay others) := by
  rw [replay, List.foldlM_append]
  rfl

theorem replay_cons (event : Event) (events : List Event) (stack : List Value) :
    replay (event :: events) stack = (handle stack event).bind (replay events) := by
  rw [replay, List.foldlM_cons]
  rfl

mutual

/-- The sizes in a value fit their type. -/
def Sized : Value → Prop
  | .string s => s.length < 2 ^ 32
  | .array elements => elements.length < 2 ^ 32 ∧ SizedElements elements
  | .object fields => fields.length < 2 ^ 32 ∧ SizedFields fields
  | _ => True

def SizedElements : List Value → Prop
  | [] => True
  | e :: elements => Sized e ∧ SizedElements elements

def SizedFields : List (Bytes × Value) → Prop
  | [] => True
  | e :: fields => e.1.length < 2 ^ 32 ∧ Sized e.2 ∧ SizedFields fields

end

mutual

/-- No object has a key twice. -/
def Keyed : Value → Prop
  | .array elements => KeyedElements elements
  | .object fields => (fields.map Prod.fst).Nodup ∧ KeyedFields fields
  | _ => True

def KeyedElements : List Value → Prop
  | [] => True
  | e :: elements => Keyed e ∧ KeyedElements elements

def KeyedFields : List (Bytes × Value) → Prop
  | [] => True
  | e :: fields => Keyed e.2 ∧ KeyedFields fields

end

theorem popElements_append (v stack acc : List Value) :
    popElements v.length (v.reverse ++ stack) acc = some (v ++ acc, stack) := by
  induction v using List.reverseRecOn generalizing stack acc with
  | nil => rfl
  | append_singleton v e ih =>
      rw [List.length_append, List.length_singleton, List.reverse_append, List.reverse_singleton,
        List.singleton_append, List.cons_append, popElements, ih, List.append_assoc,
        List.singleton_append]

/-- The stack after the events of fields: values over their keys, the last ones on top. -/
def fieldStack : List (Bytes × Value) → List Value → List Value
  | [], stack => stack
  | e :: fields, stack => fieldStack fields (e.2 :: .string e.1 :: stack)

theorem fieldStack_concat (fields : List (Bytes × Value)) (e : Bytes × Value)
    (stack : List Value) :
    fieldStack (fields ++ [e]) stack = e.2 :: .string e.1 :: fieldStack fields stack := by
  induction fields generalizing stack with
  | nil => rfl
  | cons e' fields ih => exact ih _

theorem popFields_fieldStack (fields acc : List (Bytes × Value)) (stack : List Value)
    (hfields : ((fields ++ acc).map Prod.fst).Nodup) :
    popFields fields.length (fieldStack fields stack) acc = some (fields ++ acc, stack) := by
  induction fields using List.reverseRecOn generalizing acc with
  | nil => rfl
  | append_singleton fields e ih =>
      rw [List.append_assoc, List.singleton_append] at hfields
      have hnew : e.1 ∉ acc.map Prod.fst := by
        rw [List.map_append, List.map_cons] at hfields
        exact (List.nodup_cons.mp (List.Nodup.of_append_right hfields)).1
      have hinsert : Value.insertField e.1 e.2 acc = e :: acc := by
        rw [Value.insertField, List.filter_eq_self.mpr]
        intro field hfield
        rw [decide_eq_true_iff]
        exact fun heq => hnew (heq ▸ List.mem_map_of_mem hfield)
      rw [List.length_append, List.length_singleton, fieldStack_concat, popFields]
      simp only [Value.asString]
      rw [hinsert, ih (e :: acc) hfields, List.append_assoc, List.singleton_append]

mutual

/-- **The events of a value rebuild it.** -/
theorem replay_accept (v : Value) (hv : Sized v) (hkeyed : Keyed v) (stack : List Value) :
    replay (accept v) stack = some (v :: stack) := by
  cases v with
  | null => rfl
  | boolean b => rfl
  | signedInt i =>
      rw [accept]
      split
      · rfl
      · next hsmall =>
          have hcast := (signExtend_asInt_iff i).mpr ⟨by omega, by omega⟩
          rw [BitVec.signExtend_eq] at hcast
          rw [replay_cons, handle, hcast]
          rfl
  | unsignedInt i =>
      rw [accept]
      split
      · rfl
      · next hsmall =>
          have hcast := (setWidth_asUnsignedInt_iff i).mpr (by omega)
          rw [BitVec.setWidth_eq] at hcast
          rw [replay_cons, handle, hcast]
          rfl
  | string s =>
      rw [Sized] at hv
      rw [accept, sizeType, Nat.mod_eq_of_lt hv, replay_cons, handle, List.take_length]
      rfl
  | array elements =>
      rw [Sized] at hv
      rw [Keyed] at hkeyed
      rw [accept, sizeType, Nat.mod_eq_of_lt hv.1, replay_cons, handle, Option.bind_some,
        replay_append, replay_acceptElements elements hv.2 hkeyed, Option.bind_some, replay_cons,
        handle, popElements_append, List.append_nil]
      rfl
  | object fields =>
      rw [Sized] at hv
      rw [Keyed] at hkeyed
      rw [accept, sizeType, Nat.mod_eq_of_lt hv.1, replay_cons, handle, Option.bind_some,
        replay_append, replay_acceptFields fields hv.2 hkeyed.2, Option.bind_some, replay_cons,
        handle, popFields_fieldStack fields [] _ (by rw [List.append_nil]; exact hkeyed.1),
        List.append_nil]
      rfl

theorem replay_acceptElements (elements : List Value) (helements : SizedElements elements)
    (hkeyed : KeyedElements elements) (stack : List Value) :
    replay (acceptElements elements) stack = some (elements.reverse ++ stack) := by
  cases elements with
  | nil => rfl
  | cons e elements =>
      rw [SizedElements] at helements
      rw [KeyedElements] at hkeyed
      rw [acceptElements, replay_append, replay_accept e helements.1 hkeyed.1, Option.bind_some,
        replay_acceptElements elements helements.2 hkeyed.2, List.reverse_cons, List.append_assoc,
        List.singleton_append]

theorem replay_acceptFields (fields : List (Bytes × Value)) (hfields : SizedFields fields)
    (hkeyed : KeyedFields fields) (stack : List Value) :
    replay (acceptFields fields) stack = some (fieldStack fields stack) := by
  cases fields with
  | nil => rfl
  | cons e fields =>
      rw [SizedFields] at hfields
      rw [KeyedFields] at hkeyed
      rw [acceptFields, sizeType, Nat.mod_eq_of_lt hfields.1, replay_cons, handle, List.take_length,
        Option.bind_some, replay_append, replay_accept e.2 hfields.2.1 hkeyed.1, Option.bind_some,
        replay_acceptFields fields hfields.2.2 hkeyed.2, fieldStack]

end

theorem keyedElements_of_forall {elements : List Value} (h : ∀ e ∈ elements, Keyed e) :
    KeyedElements elements := by
  induction elements with
  | nil => trivial
  | cons e elements ih =>
      rw [KeyedElements]
      exact ⟨h e List.mem_cons_self, ih fun e' he' => h e' (List.mem_cons_of_mem e he')⟩

/-- What is written has no key twice. -/
theorem keyed_toJson (t : Ty) (v : Data t) : Keyed (toJson t v) := by
  have harray : ∀ {α : Type} (encode : α → Value) (l : List α), (∀ x, Keyed (encode x)) →
      KeyedElements (l.map encode) := by
    intro α encode l h
    apply keyedElements_of_forall
    intro e he
    obtain ⟨x, -, rfl⟩ := List.mem_map.mp he
    exact h x
  induction t with
  | bool | signed _ | unsigned _ | string | indexedString | enum _ _ => trivial
  | vector element ih =>
      rw [toJson, foldl_pushBack, List.nil_append, Keyed]
      exact harray _ v ih
  | set element ih =>
      rw [toJson, foldl_pushBack, List.nil_append, Keyed]
      exact harray _ v.1 ih
  | unorderedMap key value ihk ihv =>
      have hjson := foldl_pushBack_null (encodeEntry (toJson key) (toJson value)) v.1
      change toJson (.unorderedMap key value) v = _ at hjson
      rw [hjson]
      split
      · trivial
      · rw [Keyed]
        refine harray _ v.1 fun kv => ?_
        rw [encodeEntry_eq, Keyed]
        refine ⟨?_, ?_⟩
        · exact (by decide : ([valueText, keyText] : List Bytes).Nodup)
        · simp only [KeyedFields]
          exact ⟨ihv kv.2, ihk kv.1, trivial⟩
  | pair first second ihf ihs =>
      change Keyed (.array [toJson first v.1, toJson second v.2])
      simp only [Keyed, KeyedElements]
      exact ⟨ihf v.1, ihs v.2, trivial⟩

/-! ### Sizes that do not fit -/

mutual

/-- How much a value holds. -/
def weight : Value → ℕ
  | .string s => 1 + s.length
  | .array elements => 1 + weightElements elements
  | .object fields => 1 + weightFields fields
  | _ => 1

def weightElements : List Value → ℕ
  | [] => 0
  | e :: elements => weight e + weightElements elements

def weightFields : List (Bytes × Value) → ℕ
  | [] => 0
  | e :: fields => 1 + e.1.length + weight e.2 + weightFields fields

end

theorem weight_pos (v : Value) : 0 < weight v := by
  cases v <;> simp [weight]

theorem weightElements_append (l m : List Value) :
    weightElements (l ++ m) = weightElements l + weightElements m := by
  induction l with
  | nil => simp [weightElements]
  | cons e l ih =>
      rw [List.cons_append, weightElements, weightElements, ih, Nat.add_assoc]

theorem length_le_weightElements (l : List Value) : l.length ≤ weightElements l := by
  induction l with
  | nil => exact Nat.zero_le _
  | cons e l ih =>
      have := weight_pos e
      rw [weightElements, List.length_cons]
      omega

theorem weightFields_filter_le (p : Bytes × Value → Bool) (fields : List (Bytes × Value)) :
    weightFields (fields.filter p) ≤ weightFields fields := by
  induction fields with
  | nil => exact le_rfl
  | cons e fields ih =>
      rw [List.filter_cons]
      split
      · rw [weightFields, weightFields]
        omega
      · rw [weightFields]
        omega

theorem popElements_weight {n : ℕ} {stack acc v rest : List Value}
    (h : popElements n stack acc = some (v, rest)) :
    weightElements v + weightElements rest = weightElements stack + weightElements acc ∧
      rest.length + n = stack.length := by
  induction n generalizing stack acc with
  | zero =>
      cases h
      exact ⟨Nat.add_comm _ _, rfl⟩
  | succ n ih =>
      cases stack with
      | nil => cases h
      | cons e stack =>
          obtain ⟨hweight, hlength⟩ := ih h
          rw [weightElements] at hweight ⊢
          rw [List.length_cons]
          omega

theorem popFields_weight {n : ℕ} {stack rest : List Value} {acc ret : List (Bytes × Value)}
    (h : popFields n stack acc = some (ret, rest)) :
    weightFields ret + weightElements rest ≤ weightElements stack + weightFields acc ∧
      rest.length + 2 * n = stack.length := by
  induction n generalizing stack acc with
  | zero =>
      cases h
      exact ⟨(Nat.add_comm _ _).le, rfl⟩
  | succ n ih =>
      rcases stack with - | ⟨value, - | ⟨key, stack⟩⟩
      · cases h
      · cases h
      · rw [popFields] at h
        cases key with
        | string key =>
            simp only [Value.asString] at h
            obtain ⟨hweight, hlength⟩ := ih h
            have hfilter := weightFields_filter_le (fun field => field.1 ≠ key) acc
            rw [Value.insertField, weightFields] at hweight
            dsimp only at hweight
            simp only [weightElements, weight, List.length_cons]
            omega
        | _ => cases h

/-- What the events of values with some weight leave on a stack. -/
structure Bound (stack out : List Value) (pushed w : ℕ) (sized : Prop) : Prop where
  weight_le : weightElements out ≤ weightElements stack + w
  le : weightElements out + stack.length + pushed ≤ weightElements stack + w + out.length
  lt : ¬ sized → weightElements out + stack.length + pushed < weightElements stack + w + out.length

/-- A value on the stack. -/
theorem Bound.push {stack : List Value} {v : Value} {w : ℕ} {sized : Prop} (hw : weight v ≤ w)
    (hsized : ¬ sized → weight v < w) : Bound stack (v :: stack) 1 w sized := by
  refine ⟨?_, ?_, fun h => ?_⟩
  · rw [weightElements]
    omega
  · rw [weightElements, List.length_cons]
    omega
  · have := hsized h
    rw [weightElements, List.length_cons]
    omega

/-- The events of a value, and then those of others. -/
theorem Bound.trans {stack mid out : List Value} {pushed w pushed' w' : ℕ} {sized sized' : Prop}
    (h : Bound stack mid pushed w sized) (h' : Bound mid out pushed' w' sized') :
    Bound stack out (pushed + pushed') (w + w') (sized ∧ sized') := by
  have hle := h.le
  have hle' := h'.le
  refine ⟨?_, ?_, fun hnot => ?_⟩
  · have := h.weight_le
    have := h'.weight_le
    omega
  · omega
  · by_cases hsized : sized
    · have := h'.lt fun hsized' => hnot ⟨hsized, hsized'⟩
      omega
    · have := h.lt hsized
      omega

theorem setTop_eq_some {v : Value} {stack out : List Value} (h : setTop v stack = some out) :
    ∃ top rest, stack = top :: rest ∧ out = v :: rest := by
  cases stack with
  | nil => cases h
  | cons top rest =>
      cases h
      exact ⟨top, rest, rfl, rfl⟩

mutual

/-- **The events of a value never make more of it**, and less where a size does not fit. -/
theorem bound_accept (v : Value) {stack out : List Value}
    (h : replay (accept v) stack = some out) : Bound stack out 1 (weight v) (Sized v) := by
  cases v with
  | null =>
      cases h
      exact Bound.push le_rfl fun h => absurd trivial h
  | boolean b =>
      cases h
      exact Bound.push le_rfl fun h => absurd trivial h
  | signedInt i =>
      rw [accept] at h
      split at h <;> cases h <;> exact Bound.push le_rfl fun h => absurd trivial h
  | unsignedInt i =>
      rw [accept] at h
      split at h <;> cases h <;> exact Bound.push le_rfl fun h => absurd trivial h
  | string s =>
      rw [accept] at h
      cases h
      have hmod : sizeType s.length ≤ s.length := Nat.mod_le _ _
      refine Bound.push ?_ fun hsized => ?_
      · rw [weight, weight, List.length_take]
        omega
      · rw [Sized, not_lt] at hsized
        have : sizeType s.length < 2 ^ 32 := Nat.mod_lt _ (Nat.two_pow_pos 32)
        rw [weight, weight, List.length_take]
        omega
  | array elements =>
      rw [accept, replay_cons, handle, Option.bind_some, replay_append] at h
      obtain ⟨mid, hmid, h⟩ := Option.bind_eq_some_iff.mp h
      rw [replay_cons] at h
      obtain ⟨out', hout, h⟩ := Option.bind_eq_some_iff.mp h
      cases h
      obtain ⟨⟨v, rest⟩, hpop, hout⟩ := Option.bind_eq_some_iff.mp hout
      obtain ⟨top, rest', rfl, rfl⟩ := setTop_eq_some hout
      have hbound := bound_acceptElements elements hmid
      obtain ⟨hweight, hlength⟩ := popElements_weight hpop
      have hle := hbound.le
      have hmid_le := hbound.weight_le
      have hpos := weight_pos top
      have hmod : sizeType elements.length ≤ elements.length := Nat.mod_le _ _
      have hlt : sizeType elements.length < 2 ^ 32 := Nat.mod_lt _ (Nat.two_pow_pos 32)
      simp only [weightElements, weight, List.length_cons] at hle
      simp only [weightElements, weight, Nat.add_zero] at hmid_le hweight
      simp only [List.length_cons] at hlength
      refine ⟨?_, ?_, fun hsized => ?_⟩
      · simp only [weightElements, weight]
        omega
      · simp only [weightElements, weight, List.length_cons]
        omega
      · rw [Sized, not_and_or, not_lt] at hsized
        simp only [weightElements, weight, List.length_cons]
        rcases hsized with hsize | hsized
        · omega
        · have hstrict := hbound.lt hsized
          simp only [weightElements, weight, List.length_cons] at hstrict
          omega
  | object fields =>
      rw [accept, replay_cons, handle, Option.bind_some, replay_append] at h
      obtain ⟨mid, hmid, h⟩ := Option.bind_eq_some_iff.mp h
      rw [replay_cons] at h
      obtain ⟨out', hout, h⟩ := Option.bind_eq_some_iff.mp h
      cases h
      obtain ⟨⟨ret, rest⟩, hpop, hout⟩ := Option.bind_eq_some_iff.mp hout
      obtain ⟨top, rest', rfl, rfl⟩ := setTop_eq_some hout
      have hbound := bound_acceptFields fields hmid
      obtain ⟨hweight, hlength⟩ := popFields_weight hpop
      have hle := hbound.le
      have hmid_le := hbound.weight_le
      have hpos := weight_pos top
      have hmod : sizeType fields.length ≤ fields.length := Nat.mod_le _ _
      have hlt : sizeType fields.length < 2 ^ 32 := Nat.mod_lt _ (Nat.two_pow_pos 32)
      simp only [weightElements, weight, List.length_cons] at hle
      simp only [weightElements, weightFields, weight, Nat.add_zero] at hmid_le hweight
      simp only [List.length_cons] at hlength
      refine ⟨?_, ?_, fun hsized => ?_⟩
      · simp only [weightElements, weight]
        omega
      · simp only [weightElements, weight, List.length_cons]
        omega
      · rw [Sized, not_and_or, not_lt] at hsized
        simp only [weightElements, weight, List.length_cons]
        rcases hsized with hsize | hsized
        · omega
        · have hstrict := hbound.lt hsized
          simp only [weightElements, weight, List.length_cons] at hstrict
          omega
termination_by structural v

theorem bound_acceptElements (elements : List Value) {stack out : List Value}
    (h : replay (acceptElements elements) stack = some out) :
    Bound stack out elements.length (weightElements elements) (SizedElements elements) := by
  cases elements with
  | nil =>
      cases h
      exact ⟨le_rfl, le_rfl, fun h => absurd trivial h⟩
  | cons e elements =>
      rw [acceptElements, replay_append] at h
      obtain ⟨mid, hmid, h⟩ := Option.bind_eq_some_iff.mp h
      rw [List.length_cons, Nat.add_comm, weightElements, SizedElements]
      exact (bound_accept e hmid).trans (bound_acceptElements elements h)
termination_by structural elements

theorem bound_acceptFields (fields : List (Bytes × Value)) {stack out : List Value}
    (h : replay (acceptFields fields) stack = some out) :
    Bound stack out (2 * fields.length) (weightFields fields) (SizedFields fields) := by
  cases fields with
  | nil =>
      cases h
      exact ⟨le_rfl, le_rfl, fun h => absurd trivial h⟩
  | cons e fields =>
      rw [acceptFields, replay_cons, handle, Option.bind_some, replay_append] at h
      obtain ⟨mid, hmid, h⟩ := Option.bind_eq_some_iff.mp h
      have hkey : Bound stack (.string (e.1.take (sizeType e.1.length)) :: stack) 1
          (1 + e.1.length) (e.1.length < 2 ^ 32) := by
        have hmod : sizeType e.1.length ≤ e.1.length := Nat.mod_le _ _
        have hlt : sizeType e.1.length < 2 ^ 32 := Nat.mod_lt _ (Nat.two_pow_pos 32)
        refine Bound.push ?_ fun hsized => ?_
        · rw [weight, List.length_take]
          omega
        · rw [weight, List.length_take]
          omega
      have hall := hkey.trans ((bound_accept e.2 hmid).trans (bound_acceptFields fields h))
      have hpushed : 2 * (e :: fields).length = 1 + (1 + 2 * fields.length) := by
        rw [List.length_cons]
        omega
      rw [hpushed, weightFields, SizedFields, Nat.add_assoc]
      exact hall
termination_by structural fields

end

theorem ofOption_eq_value {α : Type} {o : Option α} {v : α} :
    Decoded.ofOption o = .value v ↔ o = some v := by
  cases o with
  | none => simp [Decoded.ofOption]
  | some w => simp [Decoded.ofOption]

/-- What a loop decodes holds no more than what it is decoded from. -/
theorem weight_decodeAll {α β : Type} {decode : Value → Decoded α} (encode : α → Value)
    {append : β → α → β} {contents : β → List α} {ok : List α → Prop}
    (happends : Appends append contents ok)
    (hdecode : ∀ m x, decode m = .value x → weight (encode x) ≤ weight m)
    {elements : List Value} {ret r : β} (h : decodeAll decode append elements ret = .value r) :
    weightElements ((contents r).map encode) ≤
      weightElements ((contents ret).map encode) + weightElements elements := by
  induction elements generalizing ret with
  | nil =>
      cases h
      exact le_rfl
  | cons m elements ih =>
      rw [decodeAll] at h
      split at h
      · cases h
      · cases h
      · next x hx =>
          have hrest := ih h
          have hx := hdecode m x hx
          rw [weightElements]
          rcases happends.cases ret x with hret | hret
          · rw [hret, List.map_append, weightElements_append] at hrest
            simp only [List.map_cons, List.map_nil, weightElements] at hrest
            omega
          · rw [hret] at hrest
            omega

/-- No decoder takes null. -/
theorem fromJson_null (t : Ty) (v : Data t) : fromJson t .null ≠ .value v := by
  intro h
  cases t <;> cases h

theorem weight_field_le {k : Bytes} {fields : List (Bytes × Value)}
    (h : Value.field k fields ≠ .null) :
    1 + k.length + weight (Value.field k fields) +
      weightFields (fields.filter fun field => field.1 ≠ k) ≤ weightFields fields := by
  induction fields with
  | nil => exact absurd rfl h
  | cons e fields ih =>
      rw [weightFields]
      by_cases hk : e.1 = k
      · have hfield : Value.field k (e :: fields) = e.2 := by
          simp [Value.field, hk]
        have hfilter := weightFields_filter_le (fun field => field.1 ≠ k) fields
        rw [hfield, List.filter_cons_of_neg (by simp [hk]), hk]
        omega
      · have hfield : Value.field k (e :: fields) = Value.field k fields := by
          simp [Value.field, hk]
        rw [hfield] at h ⊢
        have hrest := ih h
        rw [List.filter_cons_of_pos (by simp [hk]), weightFields]
        omega

theorem field_filter {k k' : Bytes} (hne : k ≠ k') (fields : List (Bytes × Value)) :
    Value.field k (fields.filter fun field => field.1 ≠ k') = Value.field k fields := by
  induction fields with
  | nil => rfl
  | cons e fields ih =>
      by_cases hk' : e.1 = k'
      · rw [List.filter_cons_of_neg (by simp [hk']), ih]
        simp [Value.field, hk', hne.symm]
      · rw [List.filter_cons_of_pos (by simp [hk'])]
        by_cases hk : e.1 = k
        · simp [Value.field, hk]
        · simp only [Value.field, List.find?_cons, hk, decide_false] at ih ⊢
          exact ih

/-- An entry of a map needs both of its keys. -/
theorem weight_decodeEntry {key value : Ty} {m : Value} {kv : Data key × Data value}
    (hkey : ∀ j k, fromJson key j = .value k → weight (toJson key k) ≤ weight j)
    (hvalue : ∀ j v, fromJson value j = .value v → weight (toJson value v) ≤ weight j)
    (h : decodeEntry (fromJson key) (fromJson value) m = .value kv) :
    weight (encodeEntry (toJson key) (toJson value) kv) ≤ weight m := by
  cases m with
  | object fields =>
      rw [decodeEntry] at h
      split at h
      · next k v hk hv =>
          cases h
          have hne : valueText ≠ keyText := by decide
          have hknull : Value.field keyText fields ≠ .null := fun hnull =>
            fromJson_null key k (hnull ▸ hk)
          have hvnull : Value.field valueText
              (fields.filter fun field => field.1 ≠ keyText) ≠ .null := by
            rw [field_filter hne]
            exact fun hnull => fromJson_null value v (hnull ▸ hv)
          have hkweight := weight_field_le hknull
          have hvweight := weight_field_le hvnull
          rw [field_filter hne] at hvweight
          have hk := hkey _ _ hk
          have hv := hvalue _ _ hv
          rw [encodeEntry_eq]
          simp only [weight, weightFields]
          omega
      · cases h
  | _ => cases h

/-- **What is decoded holds no more than what it is decoded from.** -/
theorem weight_toJson_le (t : Ty) {j : Value} {v : Data t} (h : fromJson t j = .value v) :
    weight (toJson t v) ≤ weight j := by
  induction t generalizing j with
  | bool | signed _ | unsigned _ => exact weight_pos j
  | string =>
      rw [fromJson, ofOption_eq_value] at h
      cases j <;> cases h
      exact le_rfl
  | indexedString =>
      rw [fromJson, ofOption_eq_value] at h
      cases j with
      | string s =>
          cases h
          have := (List.takeWhile_sublist (fun x : UInt8 => decide (x ≠ 0)) (l := s)).length_le
          simp only [toJson, weight]
          omega
      | _ => cases h
  | enum names distinct =>
      rw [fromJson, ofOption_eq_value] at h
      cases j with
      | string s =>
          have hname : names[v] = s := (List.finIdxOf?_eq_some_iff.mp h).1
          change weight (.string names[v]) ≤ _
          rw [hname]
      | _ => cases h
  | vector element ih =>
      cases j with
      | array elements =>
          have hweight := weight_decodeAll (toJson element) appends_vector
            (fun m x hx => ih hx) h
          rw [toJson, foldl_pushBack, List.nil_append, weight, weight]
          simp only [id, List.map_nil, weightElements] at hweight
          omega
      | _ => cases h
  | set element ih =>
      cases j with
      | array elements =>
          have hweight := weight_decodeAll (toJson element) appends_insertElement
            (fun m x hx => ih hx) h
          rw [toJson, foldl_pushBack, List.nil_append, weight, weight]
          simp only [List.map_nil, weightElements] at hweight
          omega
      | _ => cases h
  | unorderedMap key value ihk ihv =>
      cases j with
      | array elements =>
          have hweight := weight_decodeAll (encodeEntry (toJson key) (toJson value))
            appends_insertEntry
            (fun m x hx => weight_decodeEntry (fun _ _ => ihk) (fun _ _ => ihv) hx) h
          have hjson := foldl_pushBack_null (encodeEntry (toJson key) (toJson value)) v.1
          change toJson (.unorderedMap key value) v = _ at hjson
          rw [hjson]
          simp only [List.map_nil, weightElements] at hweight
          split
          · exact weight_pos _
          · rw [weight, weight]
            omega
      | _ => cases h
  | pair first second ihf ihs =>
      obtain ⟨x, y⟩ := v
      change weight (.array [toJson first x, toJson second y]) ≤ _
      cases j with
      | array elements =>
          rcases elements with - | ⟨a, - | ⟨b, - | ⟨c, elements⟩⟩⟩
          · cases h
          · cases h
          · rw [fromJson] at h
            split at h
            · cases h
            · cases h
            · next hx hy =>
                cases h
                have hx := ihf hx
                have hy := ihs hy
                simp only [weight, weightElements]
                omega
            · cases h
          · cases h
      | _ => cases h

/-! ### Both ways -/

/-- The strings and the containers in a value are shorter than `2 ^ 32`. -/
def SizesFit : (t : Ty) → Data t → Prop
  | .bool, _ => True
  | .signed _, _ => True
  | .unsigned _, _ => True
  | .string, s => s.length < 2 ^ 32
  | .indexedString, s => s.length < 2 ^ 32
  | .enum names _, i => names[i].length < 2 ^ 32
  | .vector element, v => v.length < 2 ^ 32 ∧ ∀ x ∈ v, SizesFit element x
  | .set element, v => v.1.length < 2 ^ 32 ∧ ∀ x ∈ v.1, SizesFit element x
  | .unorderedMap key value, v =>
      v.1.length < 2 ^ 32 ∧ ∀ kv ∈ v.1, SizesFit key kv.1 ∧ SizesFit value kv.2
  | .pair first second, v => SizesFit first v.1 ∧ SizesFit second v.2

theorem sizedElements_map {α : Type} (encode : α → Value) (l : List α) :
    SizedElements (l.map encode) ↔ ∀ x ∈ l, Sized (encode x) := by
  induction l with
  | nil => exact iff_of_true trivial fun x hx => absurd hx List.not_mem_nil
  | cons x l ih => rw [List.map_cons, SizedElements, ih, List.forall_mem_cons]

theorem sized_toJson_iff (t : Ty) (v : Data t) : Sized (toJson t v) ↔ SizesFit t v := by
  induction t with
  | bool | signed _ | unsigned _ => exact Iff.rfl
  | string | indexedString | enum _ _ =>
      rw [toJson, Sized, SizesFit]
  | vector element ih =>
      rw [toJson, foldl_pushBack, List.nil_append, Sized, SizesFit, List.length_map,
        sizedElements_map]
      exact and_congr_right fun _ => forall₂_congr fun x _ => ih x
  | set element ih =>
      rw [toJson, foldl_pushBack, List.nil_append, Sized, SizesFit, List.length_map,
        sizedElements_map]
      exact and_congr_right fun _ => forall₂_congr fun x _ => ih x
  | unorderedMap key value ihk ihv =>
      have hjson := foldl_pushBack_null (encodeEntry (toJson key) (toJson value)) v.1
      change toJson (.unorderedMap key value) v = _ at hjson
      rw [hjson, SizesFit]
      split
      · next hnil =>
          rw [hnil]
          simp [Sized]
      · rw [Sized, List.length_map, sizedElements_map]
        refine and_congr_right fun _ => forall₂_congr fun kv _ => ?_
        have hkey : keyText.length < 2 ^ 32 := by decide
        have hvalue : valueText.length < 2 ^ 32 := by decide
        rw [encodeEntry_eq]
        simp only [Sized, SizedFields, hkey, hvalue, List.length_cons, List.length_nil, ihk, ihv,
          true_and, and_true]
        exact ⟨fun h => ⟨h.2.2, h.2.1⟩, fun h => ⟨by decide, h.2, h.1⟩⟩
  | pair first second ihf ihs =>
      change Sized (.array [toJson first v.1, toJson second v.2]) ↔ _
      simp only [Sized, SizedElements, SizesFit, ihf, ihs, and_true]
      rw [List.length_cons, List.length_cons, List.length_nil]
      exact and_iff_right (by omega)

/-- A value is decoded from what it is encoded to, and from what the events of that build. -/
structure RoundTrips (t : Ty) (v : Data t) : Prop where
  decodes : fromJson t (toJson t v) = .value v
  rebuilds : ∃ j, rebuild (toJson t v) = some j ∧ fromJson t j = .value v

/-- **Which values survive a round trip.** -/
theorem roundTrips_iff (t : Ty) (v : Data t) :
    RoundTrips t v ↔ Faithful t v ∧ SizesFit t v := by
  constructor
  · rintro ⟨hdecodes, j, hrebuild, hj⟩
    refine ⟨(fromJson_toJson_eq_iff t v).mp hdecodes, (sized_toJson_iff t v).mp ?_⟩
    obtain ⟨out, hout, htop⟩ := Option.bind_eq_some_iff.mp hrebuild
    have hbound := bound_accept (toJson t v) hout
    have hweight := weight_toJson_le t hj
    cases out with
    | nil => cases htop
    | cons top rest =>
        cases htop
        -- the value on top holds all there is, so nothing is below it
        have hrest := length_le_weightElements rest
        have htotal := hbound.weight_le
        simp only [weightElements] at htotal
        by_contra hsized
        have hlt := hbound.lt hsized
        simp only [weightElements, List.length_cons, List.length_nil] at hlt
        omega
  · rintro ⟨hfaithful, hsizes⟩
    have hdecodes := (fromJson_toJson_eq_iff t v).mpr hfaithful
    refine ⟨hdecodes, toJson t v, ?_, hdecodes⟩
    rw [rebuild, replay_accept _ ((sized_toJson_iff t v).mpr hsizes) (keyed_toJson t v)]
    rfl

/-- **The empty map is not decoded.** -/
theorem not_roundTrips : ¬ ∀ (t : Ty) (v : Data t), RoundTrips t v := by
  intro h
  have hdecodes := (h (.unorderedMap .string .bool) ⟨[], List.nodup_nil⟩).decodes
  cases hdecodes

end JsonTraits

end Borealis
