import Borealis.Type.TypeFactory
import Mathlib.Data.List.Forall2

/-!
# Types are canonical

Two objects of the factory that stand for the same type are the same object.  The objects meant are
the ones that clients can reach: the results of their calls, the fields of record bodies, and the
types these are built from.

## Strategy

`Named` says that an object is the one its own table entry names; two such objects with one node are
equal, and so are two with the same structure (`WellFormed.eq_of_sameType`).  Every step of a cast
keeps the objects named (`Grow`): tables only gain entries, with one exception.  `getRecord` stores
a record without looking whether its fields have stored one.  A struct that is not recursive has no
such fields, because a cast stores only the records of the structs it reaches (`Grow.frame`).
-/

namespace Borealis

namespace TypeFactory

variable {S : Type}

namespace Factory

/-- The object is the one that its table entry names. -/
def Named (F : Factory S) (x : Id) : Prop := ∃ n, F.node x = some n ∧ F.table n = some x

/-- Tables name objects of their key, but for the records of opaque structs; types are built from
named types, and record bodies have named fields. -/
structure WellFormed (F : Factory S) : Prop where
  table : ∀ n x, F.table n = some x → F.node x = some n ∨
    (∃ name, n = .record name) ∧ F.node x = some .unknownType ∧ F.table .unknownType = some x
  args : ∀ n x, F.table n = some x → ∀ y ∈ n.args, F.Named y
  bodies : ∀ name body, F.recordBodies name = some body → ∀ f ∈ body, F.Named f.type

/-- Nothing that was there is lost. -/
structure Persists (F F' : Factory S) : Prop where
  node : ∀ x n, F.node x = some n → F'.node x = some n
  table : ∀ n x, F.table n = some x → F'.table n = some x
  bodies : ∀ name, F'.recordBodies name = none → F.recordBodies name = none
  visited : ∀ s ∈ F.visitedRecordTypes, s ∈ F'.visitedRecordTypes

/-- A change that loses nothing, and makes records of certain names only. -/
structure Grow (F F' : Factory S) (names : String → Prop) : Prop where
  wellFormed : F'.WellFormed
  persists : Persists F F'
  frame : ∀ name, ¬ names name → F'.table (.record name) = F.table (.record name)

theorem Persists.refl (F : Factory S) : Persists F F :=
  ⟨fun _ _ h => h, fun _ _ h => h, fun _ h => h, fun _ h => h⟩

theorem Persists.trans {F F' F'' : Factory S} (h : Persists F F') (h' : Persists F' F'') :
    Persists F F'' where
  node x n hx := h'.node x n (h.node x n hx)
  table n x hx := h'.table n x (h.table n x hx)
  bodies name hname := h.bodies name (h'.bodies name hname)
  visited s hs := h'.visited s (h.visited s hs)

theorem Persists.named {F F' : Factory S} (h : Persists F F') {x : Id} (hx : F.Named x) :
    F'.Named x := by
  obtain ⟨n, hn, htable⟩ := hx
  exact ⟨n, h.node x n hn, h.table n x htable⟩

theorem Grow.refl {F : Factory S} (hF : F.WellFormed) (names : String → Prop) : Grow F F names :=
  ⟨hF, Persists.refl F, fun _ _ => rfl⟩

theorem Grow.trans {F F' F'' : Factory S} {names names' : String → Prop}
    (h : Grow F F' names) (h' : Grow F' F'' names') (hnames : ∀ name, names' name → names name) :
    Grow F F'' names where
  wellFormed := h'.wellFormed
  persists := h.persists.trans h'.persists
  frame name hname := (h'.frame name fun hn => hname (hnames name hn)).trans (h.frame name hname)

theorem Grow.mono {F F' : Factory S} {names names' : String → Prop} (h : Grow F F' names)
    (hnames : ∀ name, names name → names' name) : Grow F F' names' :=
  ⟨h.wellFormed, h.persists, fun name hname => h.frame name fun hn => hname (hnames name hn)⟩

namespace WellFormed

variable {F : Factory S}

/-- What a table names is named. -/
theorem named (hF : F.WellFormed) {n : Node} {x : Id} (hx : F.table n = some x) : F.Named x := by
  rcases hF.table n x hx with hn | ⟨-, hn, hunknown⟩
  · exact ⟨n, hn, hx⟩
  · exact ⟨.unknownType, hn, hunknown⟩

/-- What a named type is built from is named. -/
theorem named_args (hF : F.WellFormed) {n : Node} {x : Id} (hx : F.Named x)
    (hn : F.node x = some n) : ∀ y ∈ n.args, F.Named y := by
  obtain ⟨n', hn', htable⟩ := hx
  obtain rfl : n = n' := Option.some.inj (hn.symm.trans hn')
  exact hF.args n x htable

/-- **A new entry keeps the factory well formed**, when the table had none. -/
theorem set (hF : F.WellFormed) {F' : Factory S} {n : Node} {x : Id} {l : List Node}
    (hobjects : F'.objects = F.objects ++ l)
    (htable : F'.table = Function.update F.table n (some x))
    (hbodies : F'.recordBodies = F.recordBodies)
    (hvisited : F'.visitedRecordTypes = F.visitedRecordTypes) (hnone : F.table n = none)
    (hx : F'.node x = some n ∨
      (∃ name, n = .record name) ∧ F'.node x = some .unknownType ∧ F.table .unknownType = some x)
    (hargs : ∀ y ∈ n.args, F.Named y) : F'.WellFormed ∧ Persists F F' := by
  have hpersists : Persists F F' := by
    refine ⟨fun y m hy => ?_, fun m y hm => ?_, fun name h => hbodies ▸ h,
      fun s hs => hvisited.symm ▸ hs⟩
    · obtain ⟨hlt, -⟩ := List.getElem?_eq_some_iff.mp hy
      rw [node, hobjects, List.getElem?_append_left hlt]
      exact hy
    · have hne : m ≠ n := by
        rintro rfl
        exact absurd (hnone.symm.trans hm).symm (Option.some_ne_none _)
      rw [htable, Function.update_of_ne hne]
      exact hm
  refine ⟨⟨fun m y hm => ?_, fun m y hm z hz => ?_, fun name body hbody f hf => ?_⟩, hpersists⟩
  · by_cases hmn : m = n
    · subst hmn
      rw [htable, Function.update_self, Option.some.injEq] at hm
      subst hm
      rcases hx with hx | ⟨hname, hx, hunknown⟩
      · exact Or.inl hx
      · exact Or.inr ⟨hname, hx, hpersists.table _ _ hunknown⟩
    · rw [htable, Function.update_of_ne hmn] at hm
      rcases hF.table m y hm with hy | ⟨hname, hy, hunknown⟩
      · exact Or.inl (hpersists.node _ _ hy)
      · exact Or.inr ⟨hname, hpersists.node _ _ hy, hpersists.table _ _ hunknown⟩
  · by_cases hmn : m = n
    · subst hmn
      exact hpersists.named (hargs z hz)
    · rw [htable, Function.update_of_ne hmn] at hm
      exact hpersists.named (hF.args m y hm z hz)
  · rw [hbodies] at hbody
    exact hpersists.named (hF.bodies name body hbody f hf)

theorem create (hF : F.WellFormed) {n : Node} (hnone : F.table n = none)
    (hargs : ∀ y ∈ n.args, F.Named y) :
    (F.create n).2.WellFormed ∧ Persists F (F.create n).2 :=
  hF.set (l := [n]) rfl rfl rfl rfl hnone
    (Or.inl (by rw [node, Factory.create, List.getElem?_concat_length])) hargs

/-- **Looking a type up, or making it.** -/
theorem intern (hF : F.WellFormed) {n : Node} (hargs : ∀ y ∈ n.args, F.Named y)
    {names : String → Prop} (hnames : ∀ name, n = .record name → names name) :
    Grow F (F.intern n).2 names ∧ (F.intern n).2.table n = some (F.intern n).1 := by
  unfold Factory.intern
  cases hn : F.table n with
  | some x => exact ⟨Grow.refl hF names, hn⟩
  | none =>
      obtain ⟨hwf, hpersists⟩ := hF.create hn hargs
      refine ⟨⟨hwf, hpersists, fun name hname => ?_⟩, Function.update_self _ _ _⟩
      refine Function.update_of_ne ?_ _ _
      rintro rfl
      exact hname (hnames name rfl)

theorem recordBodies_embedBody (F : Factory S) (name : String) (body : List RecordField) :
    (F.embedBody name body).recordBodies = Function.update F.recordBodies name
      (some (mergeRecordBodyInto ((F.recordBodies name).getD []) body)) := rfl

/-- A registry with one more body of named fields. -/
theorem embedBody (hF : F.WellFormed) (name : String) {body : List RecordField}
    (hbody : ∀ f ∈ body, F.Named f.type) : Grow F (F.embedBody name body) fun _ => False := by
  refine ⟨⟨hF.table, hF.args, fun name' body' hbody' f hf => ?_⟩,
    ⟨fun _ _ h => h, fun _ _ h => h, fun name' h => ?_, fun _ h => h⟩, fun _ _ => rfl⟩
  · by_cases hname : name' = name
    · subst hname
      rw [recordBodies_embedBody, Function.update_self, Option.some.injEq] at hbody'
      subst hbody'
      unfold mergeRecordBodyInto at hf
      split at hf
      · exact hbody f hf
      · cases hold : F.recordBodies name' with
        | none =>
            rw [hold] at hf
            exact absurd hf List.not_mem_nil
        | some old =>
            rw [hold] at hf
            exact hF.bodies name' old hold f hf
    · rw [recordBodies_embedBody, Function.update_of_ne hname] at hbody'
      exact hF.bodies name' body' hbody' f hf
  · by_cases hname : name' = name
    · subst hname
      rw [recordBodies_embedBody, Function.update_self] at h
      exact absurd h (Option.some_ne_none _)
    · rwa [recordBodies_embedBody, Function.update_of_ne hname] at h

end WellFormed

/-! ## The same type -/

/-- Two types with the same structure; records with the same name. -/
inductive SameType (F : Factory S) : Id → Id → Prop
  | mk {x y : Id} {n n' : Node} : F.node x = some n → F.node y = some n' → n.shape = n'.shape →
      (∀ (k : Nat) (a b : Id), n.args[k]? = some a → n'.args[k]? = some b → SameType F a b) → SameType F x y

/-- The shape of a node tells how many types it is built from. -/
theorem length_args {n n' : Node} (h : n.shape = n'.shape) : n.args.length = n'.args.length := by
  cases n <;> cases n' <;> simp_all [Node.shape, Node.args]

/-- **Named objects with the same structure are the same object.** -/
theorem WellFormed.eq_of_sameType {F : Factory S} (hF : F.WellFormed) {x y : Id}
    (h : F.SameType x y) (hx : F.Named x) (hy : F.Named y) : x = y := by
  induction h with
  | @mk x y n n' hn hn' hshape hargs ih =>
      have hsame : n.args = n'.args := by
        refine List.ext_getElem? fun k => ?_
        cases hk : n.args[k]? with
        | none =>
            rw [List.getElem?_eq_none_iff, length_args hshape] at hk
            exact (List.getElem?_eq_none_iff.mpr hk).symm
        | some a =>
            obtain ⟨hlt, ha⟩ := List.getElem?_eq_some_iff.mp hk
            rw [length_args hshape] at hlt
            have hk' := List.getElem?_eq_getElem hlt
            rw [hk', ih k a _ hk hk' (hF.named_args hx hn a (ha ▸ List.getElem_mem _))
              (hF.named_args hy hn' _ (List.getElem_mem _))]
      obtain rfl := Node.ext_args hshape hsame
      obtain ⟨m, hm, hxm⟩ := hx
      obtain ⟨m', hm', hym⟩ := hy
      obtain rfl := Option.some.inj (hn.symm.trans hm)
      obtain rfl := Option.some.inj (hn'.symm.trans hm')
      exact Option.some.inj (hxm.symm.trans hym)

end Factory

/-! ## The structs that a cast meets -/

/-- Induction over LLVM types in which a function type hands over the hypothesis for each of its
parameters. -/
theorem LlvmType.induction {motive : LlvmType S → Prop} (void : motive .void)
    (integer : ∀ width, motive (.integer width)) (floating : motive .floating)
    (pointer : ∀ elem, motive elem → motive (.pointer elem))
    (array : ∀ elem size, motive elem → motive (.array elem size))
    (vector : ∀ elem size, motive elem → motive (.vector elem size))
    (struct : ∀ str, motive (.struct str)) (metadata : motive .metadata)
    (function : ∀ ret params, motive ret → (∀ t ∈ params, motive t) →
      motive (.function ret params))
    (other : ∀ text, motive (.other text)) (t : LlvmType S) : motive t :=
  @LlvmType.rec S motive (fun ts => ∀ t ∈ ts, motive t) void integer floating pointer array vector
    struct metadata function other (by simp)
    (fun head tail hhead htail t ht => by
      rcases List.mem_cons.mp ht with rfl | ht
      · exact hhead
      · exact htail t ht) t

/-- The structs in a type, not looking into them. -/
inductive Mentions : LlvmType S → S → Prop
  | struct (s : S) : Mentions (.struct s) s
  | pointer {t : LlvmType S} {s : S} : Mentions t s → Mentions (.pointer t) s
  | array {t : LlvmType S} {s : S} (n : Nat) : Mentions t s → Mentions (.array t n) s
  | vector {t : LlvmType S} {s : S} (n : Nat) : Mentions t s → Mentions (.vector t n) s
  | ret {t : LlvmType S} {s : S} (params : List (LlvmType S)) : Mentions t s →
      Mentions (.function t params) s
  | param {t : LlvmType S} {s : S} (ret : LlvmType S) {params : List (LlvmType S)} : t ∈ params →
      Mentions t s → Mentions (.function ret params) s

variable (E : Env S)

/-- `getRecord` goes on to cast the fields of the struct. -/
def Enters (F : Factory S) (name : String) (st : S) : Prop :=
  F.table (.record name) = none ∧ F.recordBodies name = none ∧ st ∉ F.visitedRecordTypes ∧
    (E.struct st).isOpaque = false

/-- The structs in a type, and in the fields of the structs that are entered. -/
inductive Reaches (F : Factory S) : LlvmType S → S → Prop
  | here {t : LlvmType S} {s : S} : Mentions t s → Reaches F t s
  | field {t t' : LlvmType S} {u s : S} : Mentions t u → Enters E F (E.name u) u →
      t' ∈ (E.struct u).elements → Reaches F t' s → Reaches F t s

/-- The fields of a struct do not lead back to a struct of its name. -/
def NotRecursive (F : Factory S) (name : String) (st : S) : Prop :=
  Enters E F name st → ∀ t ∈ (E.struct st).elements, ∀ s, Reaches E F t s → E.name s ≠ name

/-- No struct that a cast of the type reaches is recursive. -/
def Flat (F : Factory S) (t : LlvmType S) : Prop :=
  ∀ s, Reaches E F t s → NotRecursive E F (E.name s) s

/-- The record names that a cast of the type may make. -/
def Touches (F : Factory S) (t : LlvmType S) (name : String) : Prop :=
  ∃ s, Reaches E F t s ∧ E.name s = name

variable {E}

open Factory

theorem Enters.of_persists {F F' : Factory S} (h : Persists F F') {name : String} {st : S}
    (hst : Enters E F' name st) : Enters E F name st := by
  obtain ⟨htable, hbodies, hvisited, hopaque⟩ := hst
  refine ⟨?_, h.bodies name hbodies, fun hs => hvisited (h.visited st hs), hopaque⟩
  cases hx : F.table (.record name) with
  | none => rfl
  | some x => exact absurd (htable.symm.trans (h.table _ x hx)).symm (Option.some_ne_none _)

theorem Reaches.of_persists {F F' : Factory S} (h : Persists F F') {t : LlvmType S} {s : S}
    (hs : Reaches E F' t s) : Reaches E F t s := by
  induction hs with
  | here hmentions => exact .here hmentions
  | field hmentions henters hmem _ ih => exact .field hmentions (henters.of_persists h) hmem ih

theorem NotRecursive.persists {F F' : Factory S} (h : Persists F F') {name : String} {st : S}
    (hst : NotRecursive E F name st) : NotRecursive E F' name st :=
  fun henters t ht s hs => hst (henters.of_persists h) t ht s (hs.of_persists h)

theorem Flat.persists {F F' : Factory S} (h : Persists F F') {t : LlvmType S}
    (ht : Flat E F t) : Flat E F' t :=
  fun s hs => (ht s (hs.of_persists h)).persists h

theorem Touches.of_persists {F F' : Factory S} (h : Persists F F') {t : LlvmType S}
    {name : String} (ht : Touches E F' t name) : Touches E F t name := by
  obtain ⟨s, hs, hname⟩ := ht
  exact ⟨s, hs.of_persists h, hname⟩

/-- A type with all structs of another one reaches what that one reaches. -/
theorem Reaches.of_mentions {F : Factory S} {t t' : LlvmType S}
    (h : ∀ s, Mentions t s → Mentions t' s) {s : S} (hs : Reaches E F t s) : Reaches E F t' s := by
  cases hs with
  | here hmentions => exact .here (h _ hmentions)
  | field hmentions henters hmem hs => exact .field (h _ hmentions) henters hmem hs

theorem Flat.of_mentions {F : Factory S} {t t' : LlvmType S}
    (h : ∀ s, Mentions t s → Mentions t' s) (ht : Flat E F t') : Flat E F t :=
  fun s hs => ht s (hs.of_mentions h)

theorem Touches.of_mentions {F : Factory S} {t t' : LlvmType S}
    (h : ∀ s, Mentions t s → Mentions t' s) {name : String} (ht : Touches E F t name) :
    Touches E F t' name := by
  obtain ⟨s, hs, hname⟩ := ht
  exact ⟨s, hs.of_mentions h, hname⟩

/-- The fields of a struct that is entered are reached. -/
theorem Reaches.of_field {F : Factory S} {st s : S} (henters : Enters E F (E.name st) st)
    {t : LlvmType S} (ht : t ∈ (E.struct st).elements) (hs : Reaches E F t s) :
    Reaches E F (.struct st) s := .field (.struct st) henters ht hs

/-! ## What a type resolves to -/

mutual
/-- What the tables say about an LLVM type. -/
def resolve (E : Env S) (F : Factory S) : LlvmType S → Signedness → Option Id
  | .void, _ => F.table .unknownType
  | .integer width, sign => F.table (if width = 1 then .bool else .integer width sign)
  | .floating, _ => F.table .float
  | .pointer elem, _ => (resolve E F elem .unknown).bind fun x =>
      if F.isInvalid x then some x else F.table (.pointer x 0)
  | .array elem size, _ => (resolve E F elem .unknown).bind fun x =>
      if F.isInvalid x then some x
      else F.table (.array x (if size ≠ 0 then some size else none))
  | .vector elem size, _ => (resolve E F elem .unknown).bind fun x =>
      if F.isInvalid x then some x
      else F.table (.array x (if size ≠ 0 then some size else none))
  | .struct str, _ => F.table (.record (E.name str))
  | .metadata, _ => F.table .unknownType
  | .function ret params, _ => (resolve E F ret .unknown).bind fun r =>
      (resolveAll E F params).bind fun xs => F.table (.function r xs)
  | .other text, _ => F.table (.typeError ("Unsupported llvm type: " ++ text))

/-- What the tables say about several types. -/
def resolveAll (E : Env S) (F : Factory S) : List (LlvmType S) → Option (List Id)
  | [] => some []
  | t :: ts => (resolve E F t .unknown).bind fun x => (resolveAll E F ts).map (x :: ·)
end

theorem isInvalid_persists {F F' : Factory S} (h : Persists F F') {x : Id} (hx : F.Named x) :
    F'.isInvalid x = F.isInvalid x := by
  obtain ⟨n, hn, -⟩ := hx
  rw [isInvalid, isInvalid, hn, h.node x n hn]

/-- A type that is built from one other type, unless that one is a type error. -/
theorem resolve_built {F F' : Factory S} {names : String → Prop} {x : Id} {n : Node}
    (hF : F.WellFormed) (hx : F.Named x) (hargs : n.args = [x])
    (hrecord : ∀ name, n ≠ .record name)
    (hF' : F' = (if F.isInvalid x then (x, F) else F.intern n).2) :
    Grow F F' names ∧ (if F'.isInvalid x then some x else F'.table n) =
      some (if F.isInvalid x then (x, F) else F.intern n).1 := by
  cases hinvalid : F.isInvalid x with
  | true =>
      rw [hinvalid, if_pos rfl] at hF'
      subst hF'
      rw [if_pos hinvalid, if_pos rfl]
      exact ⟨Grow.refl hF names, rfl⟩
  | false =>
      rw [hinvalid, if_neg Bool.false_ne_true] at hF'
      subst hF'
      obtain ⟨hgrow, htable⟩ := hF.intern (n := n)
        (fun y hy => by rw [hargs, List.mem_singleton] at hy; exact hy ▸ hx)
        (fun name hname => absurd hname (hrecord name))
      rw [isInvalid_persists hgrow.persists hx, hinvalid, if_neg Bool.false_ne_true,
        if_neg Bool.false_ne_true]
      exact ⟨hgrow, htable⟩

theorem resolveAll_congr {F F' : Factory S} {ts : List (LlvmType S)}
    (hts : ∀ t ∈ ts, ∀ y, resolve E F t .unknown = some y → resolve E F' t .unknown = some y)
    {xs : List Id} (hxs : resolveAll E F ts = some xs) : resolveAll E F' ts = some xs := by
  induction ts generalizing xs with
  | nil => exact hxs
  | cons t ts ih =>
      rw [resolveAll] at hxs ⊢
      obtain ⟨y, hy, hxs⟩ := Option.bind_eq_some_iff.mp hxs
      obtain ⟨ys, hys, rfl⟩ := Option.map_eq_some_iff.mp hxs
      rw [hts t List.mem_cons_self y hy, Option.bind_some,
        ih (fun u hu => hts u (List.mem_cons_of_mem t hu)) hys, Option.map_some]

/-- **What a type resolves to is named, and stays what it resolves to.** -/
theorem resolve_persists {F F' : Factory S} (hF : F.WellFormed) (h : Persists F F')
    (t : LlvmType S) {sign : Signedness} {x : Id} (hx : resolve E F t sign = some x) :
    F.Named x ∧ resolve E F' t sign = some x := by
  -- a type built from one other type
  have hbuilt : ∀ {elem : LlvmType S} {n : Id → Node},
      (∀ {sign : Signedness} {x : Id}, resolve E F elem sign = some x →
        F.Named x ∧ resolve E F' elem sign = some x) →
      ∀ {x : Id}, ((resolve E F elem .unknown).bind fun x =>
        if F.isInvalid x then some x else F.table (n x)) = some x →
      F.Named x ∧ ((resolve E F' elem .unknown).bind fun x =>
        if F'.isInvalid x then some x else F'.table (n x)) = some x := by
    intro elem n ih x hx
    obtain ⟨y, hy, hx⟩ := Option.bind_eq_some_iff.mp hx
    obtain ⟨hnamed, hy'⟩ := ih hy
    rw [hy', Option.bind_some, isInvalid_persists h hnamed]
    split at hx
    · next hinvalid =>
        obtain rfl := Option.some.inj hx
        exact ⟨hnamed, if_pos hinvalid⟩
    · next hinvalid =>
        rw [if_neg hinvalid]
        exact ⟨hF.named hx, h.table _ _ hx⟩
  induction t using LlvmType.induction generalizing sign x with
  | void => exact ⟨hF.named hx, h.table _ _ hx⟩
  | integer width => exact ⟨hF.named hx, h.table _ _ hx⟩
  | floating => exact ⟨hF.named hx, h.table _ _ hx⟩
  | pointer elem ih => exact hbuilt ih hx
  | array elem size ih => exact hbuilt ih hx
  | vector elem size ih => exact hbuilt ih hx
  | struct str => exact ⟨hF.named hx, h.table _ _ hx⟩
  | metadata => exact ⟨hF.named hx, h.table _ _ hx⟩
  | function ret params ihret ihparams =>
      rw [resolve] at hx ⊢
      obtain ⟨r, hr, hx⟩ := Option.bind_eq_some_iff.mp hx
      obtain ⟨xs, hxs, hx⟩ := Option.bind_eq_some_iff.mp hx
      rw [(ihret hr).2, Option.bind_some,
        resolveAll_congr (fun t ht y hy => (ihparams t ht hy).2) hxs, Option.bind_some]
      exact ⟨hF.named hx, h.table _ _ hx⟩
  | other text => exact ⟨hF.named hx, h.table _ _ hx⟩

theorem resolveAll_persists {F F' : Factory S} (hF : F.WellFormed) (h : Persists F F')
    {ts : List (LlvmType S)} {xs : List Id} (hxs : resolveAll E F ts = some xs) :
    resolveAll E F' ts = some xs :=
  resolveAll_congr (fun t _ _ hy => (resolve_persists hF h t hy).2) hxs

/-! ## Casts keep the factory canonical -/

/-- What `getRecord` does for the structs of a cast. -/
def RecordSpec (E : Env S) (record : S → Factory S → Option (Id × Factory S)) : Prop :=
  ∀ s F x F', F.WellFormed → Flat E F (.struct s) → record s F = some (x, F') →
    Grow F F' (Touches E F (.struct s)) ∧ F'.table (.record (E.name s)) = some x

/-- What a cast does. -/
structure CastSpec (E : Env S) (F F' : Factory S) (t : LlvmType S) (sign : Signedness) (x : Id) :
    Prop where
  grow : Grow F F' (Touches E F t)
  resolve : resolve E F' t sign = some x

/-- An interned type that is not a record. -/
theorem castSpec_intern {F : Factory S} (hF : F.WellFormed) {t : LlvmType S} {sign : Signedness}
    {n : Node} (hargs : n.args = []) (hrecord : ∀ name, n ≠ .record name)
    (hresolve : ∀ F : Factory S, resolve E F t sign = F.table n) :
    CastSpec E F (F.intern n).2 t sign (F.intern n).1 := by
  obtain ⟨hgrow, htable⟩ := hF.intern (n := n) (fun y hy => by rw [hargs] at hy; exact absurd hy List.not_mem_nil)
    (fun name hname => absurd hname (hrecord name))
  exact ⟨hgrow, (hresolve _).trans htable⟩

section

variable {record : S → Factory S → Option (Id × Factory S)}

/-- A type that is built from one other type. -/
theorem castSpec_built {t elem : LlvmType S} {sign : Signedness} {node : Id → Node}
    (hargs : ∀ x, (node x).args = [x]) (hrecord : ∀ x name, node x ≠ .record name)
    (hmentions : ∀ s, Mentions elem s → Mentions t s)
    (hresolve : ∀ F : Factory S, resolve E F t sign = (resolve E F elem .unknown).bind fun x =>
      if F.isInvalid x then some x else F.table (node x))
    {F F₁ : Factory S} {x : Id} (helem : CastSpec E F F₁ elem .unknown x) :
    CastSpec E F (if F₁.isInvalid x then (x, F₁) else F₁.intern (node x)).2 t sign
      (if F₁.isInvalid x then (x, F₁) else F₁.intern (node x)).1 := by
  have hF₁ := helem.grow.wellFormed
  have hx := (resolve_persists hF₁ (Persists.refl F₁) elem helem.resolve).1
  obtain ⟨hgrow, htable⟩ := @resolve_built S F₁ _ (fun _ => False) x (node x) hF₁ hx (hargs x)
    (hrecord x) rfl
  refine ⟨(helem.grow.mono fun name h => h.of_mentions hmentions).trans hgrow
    (fun _ h => h.elim), ?_⟩
  rw [hresolve, (resolve_persists hF₁ hgrow.persists elem helem.resolve).2, Option.bind_some]
  exact htable

/-- Casts of several types, one after the other. -/
theorem castAllWith_spec {ts : List (LlvmType S)}
    (hts : ∀ t ∈ ts, ∀ {sign : Signedness} {F F' : Factory S} {x : Id}, F.WellFormed →
      Flat E F t → castWith record t sign F = some (x, F') → CastSpec E F F' t sign x)
    {F F' : Factory S} {xs : List Id} (hF : F.WellFormed) (hflat : ∀ t ∈ ts, Flat E F t)
    (hrun : castAllWith record ts F = some (xs, F')) :
    Grow F F' (fun name => ∃ t ∈ ts, Touches E F t name) ∧ resolveAll E F' ts = some xs ∧
      ∀ x ∈ xs, F'.Named x := by
  induction ts generalizing F xs with
  | nil =>
      obtain ⟨rfl, rfl⟩ := Prod.mk.inj (Option.some.inj hrun)
      exact ⟨Grow.refl hF _, rfl, fun x hx => absurd hx List.not_mem_nil⟩
  | cons t ts ih =>
      rw [castAllWith] at hrun
      obtain ⟨⟨x, F₁⟩, hx, hrun⟩ := Option.bind_eq_some_iff.mp hrun
      obtain ⟨⟨ys, F₂⟩, hys, heq⟩ := Option.bind_eq_some_iff.mp hrun
      obtain ⟨rfl, rfl⟩ := Prod.mk.inj (Option.some.inj heq)
      have hfirst := hts t List.mem_cons_self hF (hflat t List.mem_cons_self) hx
      obtain ⟨hgrow, hresolve, hnamed⟩ := ih (fun u hu => hts u (List.mem_cons_of_mem t hu))
        hfirst.grow.wellFormed
        (fun u hu => (hflat u (List.mem_cons_of_mem t hu)).persists hfirst.grow.persists) hys
      obtain ⟨hxnamed, hxresolve⟩ :=
        resolve_persists hfirst.grow.wellFormed hgrow.persists t hfirst.resolve
      refine ⟨(hfirst.grow.mono fun name h => ⟨t, List.mem_cons_self, h⟩).trans hgrow ?_, ?_, ?_⟩
      · rintro name ⟨u, hu, hname⟩
        exact ⟨u, List.mem_cons_of_mem t hu, hname.of_persists hfirst.grow.persists⟩
      · rw [resolveAll, hxresolve, Option.bind_some, hresolve, Option.map_some]
      · intro y hy
        rcases List.mem_cons.mp hy with rfl | hy
        · exact hgrow.persists.named hxnamed
        · exact hnamed y hy

/-- **A cast makes nothing twice**, when `getRecord` does not. -/
theorem castWith_spec (hrecord : RecordSpec E record) (t : LlvmType S) {sign : Signedness}
    {F F' : Factory S} {x : Id} (hF : F.WellFormed) (hflat : Flat E F t)
    (hrun : castWith record t sign F = some (x, F')) : CastSpec E F F' t sign x := by
  induction t using LlvmType.induction generalizing sign F F' x with
  | void =>
      obtain ⟨rfl, rfl⟩ := Prod.mk.inj (Option.some.inj hrun)
      exact castSpec_intern hF rfl (fun _ => Node.noConfusion) fun _ => rfl
  | integer width =>
      rw [castWith] at hrun
      by_cases hwidth : width = 1
      · rw [if_pos hwidth] at hrun
        obtain ⟨rfl, rfl⟩ := Prod.mk.inj (Option.some.inj hrun)
        exact castSpec_intern hF rfl (fun _ => Node.noConfusion) fun F => by
          rw [resolve, if_pos hwidth]
      · rw [if_neg hwidth] at hrun
        obtain ⟨rfl, rfl⟩ := Prod.mk.inj (Option.some.inj hrun)
        exact castSpec_intern hF rfl (fun _ => Node.noConfusion) fun F => by
          rw [resolve, if_neg hwidth]
  | floating =>
      obtain ⟨rfl, rfl⟩ := Prod.mk.inj (Option.some.inj hrun)
      exact castSpec_intern hF rfl (fun _ => Node.noConfusion) fun _ => rfl
  | pointer elem ih =>
      rw [castWith] at hrun
      obtain ⟨⟨y, F₁⟩, hy, heq⟩ := Option.bind_eq_some_iff.mp hrun
      obtain ⟨rfl, rfl⟩ := Prod.mk.inj (Option.some.inj heq)
      have hmentions : ∀ s, Mentions elem s → Mentions (.pointer elem) s := fun s => .pointer
      exact castSpec_built (fun _ => rfl) (fun _ _ => Node.noConfusion) hmentions (fun _ => rfl)
        (ih hF (hflat.of_mentions hmentions) hy)
  | array elem size ih =>
      rw [castWith] at hrun
      obtain ⟨⟨y, F₁⟩, hy, heq⟩ := Option.bind_eq_some_iff.mp hrun
      obtain ⟨rfl, rfl⟩ := Prod.mk.inj (Option.some.inj heq)
      have hmentions : ∀ s, Mentions elem s → Mentions (.array elem size) s := fun s => .array size
      exact castSpec_built (fun _ => rfl) (fun _ _ => Node.noConfusion) hmentions (fun _ => rfl)
        (ih hF (hflat.of_mentions hmentions) hy)
  | vector elem size ih =>
      rw [castWith] at hrun
      obtain ⟨⟨y, F₁⟩, hy, heq⟩ := Option.bind_eq_some_iff.mp hrun
      obtain ⟨rfl, rfl⟩ := Prod.mk.inj (Option.some.inj heq)
      have hmentions : ∀ s, Mentions elem s → Mentions (.vector elem size) s := fun s => .vector size
      exact castSpec_built (fun _ => rfl) (fun _ _ => Node.noConfusion) hmentions (fun _ => rfl)
        (ih hF (hflat.of_mentions hmentions) hy)
  | struct str =>
      rw [castWith] at hrun
      obtain ⟨hgrow, htable⟩ := hrecord str F x F' hF hflat hrun
      exact ⟨hgrow, htable⟩
  | metadata =>
      obtain ⟨rfl, rfl⟩ := Prod.mk.inj (Option.some.inj hrun)
      exact castSpec_intern hF rfl (fun _ => Node.noConfusion) fun _ => rfl
  | function ret params ihret ihparams =>
      rw [castWith] at hrun
      obtain ⟨⟨r, F₁⟩, hr, hrun⟩ := Option.bind_eq_some_iff.mp hrun
      obtain ⟨⟨xs, F₂⟩, hxs, heq⟩ := Option.bind_eq_some_iff.mp hrun
      obtain ⟨rfl, rfl⟩ := Prod.mk.inj (Option.some.inj heq)
      have hmentionsRet : ∀ s, Mentions ret s → Mentions (.function ret params) s :=
        fun s => .ret params
      have hmentions : ∀ t ∈ params, ∀ s, Mentions t s → Mentions (.function ret params) s :=
        fun t ht s => .param ret ht
      have hfirst := ihret hF (hflat.of_mentions hmentionsRet) hr
      obtain ⟨hgrow, hall, hnamed⟩ := castAllWith_spec (fun t ht => ihparams t ht)
        hfirst.grow.wellFormed
        (fun t ht => (hflat.of_mentions (hmentions t ht)).persists hfirst.grow.persists) hxs
      obtain ⟨hrnamed, hrresolve⟩ :=
        resolve_persists hfirst.grow.wellFormed hgrow.persists ret hfirst.resolve
      have hargs : ∀ y ∈ (Node.function r xs).args, F₂.Named y := by
        intro y hy
        rcases List.mem_cons.mp hy with rfl | hy
        · exact hgrow.persists.named hrnamed
        · exact hnamed y hy
      have hintern : Grow F₂ (F₂.intern (.function r xs)).2 (fun _ => False) ∧
          (F₂.intern (.function r xs)).2.table (.function r xs) =
            some (F₂.intern (.function r xs)).1 :=
        hgrow.wellFormed.intern hargs fun name hname => Node.noConfusion hname
      obtain ⟨hgrow', htable⟩ := hintern
      have hret : resolve E (F₂.intern (.function r xs)).2 ret .unknown = some r :=
        (resolve_persists hgrow.wellFormed hgrow'.persists ret hrresolve).2
      show CastSpec E F (F₂.intern (.function r xs)).2 _ sign (F₂.intern (.function r xs)).1
      refine ⟨?_, ?_⟩
      · refine ((hfirst.grow.mono fun name h => h.of_mentions hmentionsRet).trans hgrow ?_).trans
          hgrow' fun _ h => h.elim
        rintro name ⟨t, ht, hname⟩
        exact (hname.of_persists hfirst.grow.persists).of_mentions (hmentions t ht)
      · rw [resolve, hret, Option.bind_some,
          resolveAll_persists hgrow.wellFormed hgrow'.persists hall, Option.bind_some]
        exact htable
  | other text =>
      obtain ⟨rfl, rfl⟩ := Prod.mk.inj (Option.some.inj hrun)
      exact castSpec_intern hF rfl (fun _ => Node.noConfusion) fun _ => rfl

end

section

theorem grow_visit {F : Factory S} (hF : F.WellFormed) (st : S) :
    Grow F (F.visit st) fun _ => False :=
  ⟨⟨hF.table, hF.args, hF.bodies⟩, ⟨fun _ _ h => h, fun _ _ h => h, fun _ h => h,
    fun _ h => List.mem_cons_of_mem st h⟩, fun _ _ => rfl⟩

/-- The fields of a struct that is entered are cast without making its record. -/
theorem table_fields {F F₁ : Factory S} {name : String} {st : S} (hF : F.WellFormed)
    (henters : Enters E F name st) (hnot : NotRecursive E F name st)
    (hgrow : Grow (F.visit st) F₁ fun name =>
      ∃ t ∈ (E.struct st).elements, Touches E (F.visit st) t name) :
    F₁.table (.record name) = none := by
  refine (hgrow.frame name ?_).trans henters.1
  rintro ⟨t, ht, s, hs, hname⟩
  exact hnot henters t ht s (hs.of_persists (grow_visit hF st).persists) hname

theorem type_mem_of_recordBody {st : S} {xs : List Id} {f : RecordField}
    (hf : f ∈ E.recordBody st xs) : f.type ∈ xs := by
  obtain ⟨⟨y, k⟩, hy, rfl⟩ := List.mem_map.mp hf
  exact List.fst_mem_of_mem_zipIdx hy

/-- Storing the record of a struct, after the call for its body has stored one. -/
theorem grow_recreate {F : Factory S} (hF : F.WellFormed) {name : String}
    (hnone : F.table (.record name) = none) {body : List RecordField}
    (hbody : ∀ f ∈ body, F.Named f.type) {F' : Factory S} {x : Id}
    (hF' : (F.embedRecordBodyNoRecursion name body).2.create (.record name) = (x, F')) :
    Grow F F' (fun n => n = name) ∧ F'.table (.record name) = some x := by
  have hembed := hF.embedBody name hbody
  have hnone' : (F.embedBody name body).table (.record name) = none := hnone
  have hintern : F.embedRecordBodyNoRecursion name body =
      (F.embedBody name body).create (.record name) := by
    rw [embedRecordBodyNoRecursion, getRecordByName, intern, hnone']
  rw [hintern] at hF'
  obtain ⟨rfl, rfl⟩ := Prod.mk.inj hF'
  obtain ⟨hwf, hpersists⟩ := @WellFormed.set S _ hembed.wellFormed
    (((F.embedBody name body).create (.record name)).2.create (.record name)).2 _ _
    [.record name, .record name] (List.append_assoc _ _ _) (Function.update_idem _ _ _) rfl rfl
    hnone'
    (Or.inl List.getElem?_concat_length) (fun y hy => absurd hy List.not_mem_nil)
  refine ⟨hembed.mono (fun _ h => h.elim) |>.trans ⟨hwf, hpersists, fun n hn => ?_⟩ fun _ h => h,
    Function.update_self _ _ _⟩
  have hne : Node.record n ≠ .record name := fun h => hn (Node.record.inj h)
  exact (Function.update_of_ne hne _ _).trans (Function.update_of_ne hne _ _)

/-- What `getRecord` changes for a struct of a cast is what the cast may change. -/
theorem recordSpec_of_grow {F F' : Factory S} {s : S} {x : Id}
    (h : Grow F F' (fun n => n = E.name s ∨
      (Enters E F (E.name s) s ∧ ∃ t ∈ (E.struct s).elements, Touches E F t n)) ∧
      F'.table (.record (E.name s)) = some x) :
    Grow F F' (Touches E F (.struct s)) ∧ F'.table (.record (E.name s)) = some x := by
  refine ⟨h.1.mono ?_, h.2⟩
  rintro n (rfl | ⟨henters, t, ht, s', hs', rfl⟩)
  · exact ⟨s, .here (.struct s), rfl⟩
  · exact ⟨s', hs'.of_field henters ht, rfl⟩

variable [DecidableEq S]

/-- **`getRecord` makes the record of a struct that is not recursive once.** -/
theorem getRecord_spec (fuel : Nat) {name : String} {st : S} {F F' : Factory S} {x : Id}
    (hF : F.WellFormed) (hnot : NotRecursive E F name st)
    (hflat : Enters E F name st → ∀ t ∈ (E.struct st).elements, Flat E F t)
    (hrun : getRecord E fuel name st F = some (x, F')) :
    Grow F F' (fun n => n = name ∨
      (Enters E F name st ∧ ∃ t ∈ (E.struct st).elements, Touches E F t n)) ∧
      F'.table (.record name) = some x := by
  induction fuel generalizing name st F F' x with
  | zero => exact absurd hrun.symm (Option.some_ne_none _)
  | succ fuel ih =>
      have hrecord : RecordSpec E fun st => getRecord E fuel (E.name st) st :=
        fun s F x F' hF hflat hrun => recordSpec_of_grow
          (ih hF (hflat s (.here (.struct s)))
            (fun henters t ht s' hs' => hflat s' (hs'.of_field henters ht)) hrun)
      rw [getRecord] at hrun
      cases htable : F.table (.record name) with
      | some existing =>
          rw [htable] at hrun
          obtain ⟨rfl, rfl⟩ := Prod.mk.inj (Option.some.inj hrun)
          exact ⟨Grow.refl hF _, htable⟩
      | none =>
          rw [htable] at hrun
          simp only at hrun
          split at hrun
          · next hfresh =>
              rw [Bool.and_eq_true, Bool.not_eq_true', List.contains_eq_mem,
                decide_eq_false_iff_not, Option.isNone_iff_eq_none] at hfresh
              have hvisit := grow_visit hF st
              split at hrun
              · next hopaque =>
                  obtain ⟨rfl, rfl⟩ := Prod.mk.inj (Option.some.inj hrun)
                  obtain ⟨hgrow, hunknown⟩ := @WellFormed.intern S (F.visit st) hvisit.wellFormed
                    .unknownType (fun y hy => absurd hy List.not_mem_nil) (fun _ => False)
                    (fun name hname => Node.noConfusion hname)
                  have hnone : ((F.visit st).intern .unknownType).2.table (.record name) = none :=
                    (hgrow.frame name id).trans htable
                  have hnode : ((F.visit st).intern .unknownType).2.node
                      ((F.visit st).intern .unknownType).1 = some .unknownType := by
                    rcases hgrow.wellFormed.table _ _ hunknown with h | ⟨⟨_, h⟩, -⟩
                    · exact h
                    · exact Node.noConfusion h
                  obtain ⟨hwf, hpersists⟩ := @WellFormed.set S _ hgrow.wellFormed
                    { ((F.visit st).intern .unknownType).2 with
                      table := Function.update ((F.visit st).intern .unknownType).2.table
                        (.record name) ((F.visit st).intern .unknownType).1 }
                    (.record name) ((F.visit st).intern .unknownType).1 []
                    (List.append_nil _).symm rfl rfl rfl hnone
                    (Or.inr ⟨⟨name, rfl⟩, hnode, hunknown⟩)
                    (fun y hy => absurd hy List.not_mem_nil)
                  refine ⟨(hvisit.trans hgrow fun _ h => h).mono (fun _ h => h.elim) |>.trans
                    ⟨hwf, hpersists, fun n hn => ?_⟩ fun _ h => h, Function.update_self _ _ _⟩
                  exact Function.update_of_ne (fun h => hn (Or.inl (Node.record.inj h))) _ _
              · next hopaque =>
                  have henters : Enters E F name st :=
                    ⟨htable, hfresh.1, hfresh.2, Bool.eq_false_iff.mpr hopaque⟩
                  obtain ⟨⟨xs, F₂⟩, hxs, heq⟩ := Option.bind_eq_some_iff.mp hrun
                  obtain ⟨hgrow, -, hnamed⟩ := castAllWith_spec
                    (fun t _ => castWith_spec hrecord t) hvisit.wellFormed
                    (fun t ht => (hflat henters t ht).persists hvisit.persists) hxs
                  have hnone := table_fields hF henters hnot hgrow
                  obtain ⟨hgrow', htable'⟩ := grow_recreate hgrow.wellFormed hnone
                    (fun f hf => hnamed _ (type_mem_of_recordBody hf)) (Option.some.inj heq)
                  refine ⟨((hvisit.mono fun _ h => h.elim).trans hgrow ?_).trans hgrow'
                    fun n hn => Or.inl hn, htable'⟩
                  rintro n ⟨t, ht, hn⟩
                  exact Or.inr ⟨henters, t, ht, hn.of_persists hvisit.persists⟩
          · next hstale =>
              obtain ⟨rfl, rfl⟩ := Prod.mk.inj (Option.some.inj hrun)
              obtain ⟨hwf, hpersists⟩ := hF.create htable fun y hy => absurd hy List.not_mem_nil
              refine ⟨⟨hwf, hpersists, fun n hn => Function.update_of_ne ?_ _ _⟩,
                Function.update_self _ _ _⟩
              exact fun h => hn (Or.inl (Node.record.inj h))

theorem recordSpec_getRecord (fuel : Nat) :
    RecordSpec E fun st => getRecord E fuel (E.name st) st :=
  fun s _ _ _ hF hflat hrun => recordSpec_of_grow
    (getRecord_spec fuel hF (hflat s (.here (.struct s)))
      (fun henters _ ht s' hs' => hflat s' (hs'.of_field henters ht)) hrun)

end

/-! ## Runs -/

/-- The types that a client has: results of its calls, fields of record bodies, and the types that
these are built from. -/
inductive Given (log : List (Call S × Id)) (F : Factory S) : Id → Prop
  | result {c : Call S} {x : Id} : (c, x) ∈ log → Given log F x
  | field {name : String} {body : List RecordField} {f : RecordField} :
      F.recordBodies name = some body → f ∈ body → Given log F f.type
  | arg {x y : Id} {n : Node} : Given log F x → F.node x = some n → y ∈ n.args → Given log F y

/-- The call meets no recursive struct whose fields it casts. -/
def Meets (E : Env S) (F : Factory S) : Call S → Prop
  | .cast type _ => Flat E F type
  | .getRecord name (some st) =>
    NotRecursive E F name st ∧ (Enters E F name st → ∀ t ∈ (E.struct st).elements, Flat E F t)
  | _ => True

section Run

variable [DecidableEq S] [Fintype S]

/-- A sequence of calls on a new factory, with their results; `ok` is what is known of each step. -/
inductive Run (E : Env S) (ok : Factory S → Call S → Prop) :
    List (Call S × Id) → Factory S → Prop
  | start : Run E ok [] .empty
  | call {log : List (Call S × Id)} {F F' : Factory S} {c : Call S} {x : Id} : Run E ok log F →
      (∀ y ∈ c.args, Given log F y) → ok F c → step E F c = some (x, F') →
      Run E ok (log ++ [(c, x)]) F'

end Run

/-- What the tables say about a call. -/
def resolveCall (E : Env S) (F : Factory S) : Call S → Option Id
  | .getBool => F.table .bool
  | .getInteger bitsize sign => F.table (.integer bitsize sign)
  | .getFloat => F.table .float
  | .getUnknownType => F.table .unknownType
  | .getPointer pointed memspace =>
    if F.isInvalid pointed then some pointed else F.table (.pointer pointed memspace)
  | .getArray elem size =>
    if F.isInvalid elem then some elem
    else F.table (.array elem (if size ≠ 0 then some size else none))
  | .getRecord name _ => F.table (.record name)
  | .getTypeError message => F.table (.typeError message)
  | .getFunction retty args => F.table (.function retty args)
  | .cast type sign => resolve E F type sign
  | .embedRecordBodyNoRecursion name _ => F.table (.record name)

theorem resolveCall_persists {F F' : Factory S} (hF : F.WellFormed) (h : Persists F F')
    {c : Call S} (hargs : ∀ y ∈ c.args, F.Named y) {x : Id} (hx : resolveCall E F c = some x) :
    F.Named x ∧ resolveCall E F' c = some x := by
  have hbuilt : ∀ {y : Id} {n : Node}, F.Named y →
      (if F.isInvalid y then some y else F.table n) = some x →
      F.Named x ∧ (if F'.isInvalid y then some y else F'.table n) = some x := by
    intro y n hy hx
    rw [isInvalid_persists h hy]
    split at hx
    · next hinvalid => exact ⟨Option.some.inj hx ▸ hy, (if_pos hinvalid).trans hx⟩
    · next hinvalid => exact ⟨hF.named hx, (if_neg hinvalid).trans (h.table _ _ hx)⟩
  cases c with
  | getPointer pointed memspace => exact hbuilt (hargs pointed List.mem_cons_self) hx
  | getArray elem size => exact hbuilt (hargs elem List.mem_cons_self) hx
  | cast type sign => exact resolve_persists hF h type hx
  | getBool => exact ⟨hF.named hx, h.table _ _ hx⟩
  | getInteger bitsize sign => exact ⟨hF.named hx, h.table _ _ hx⟩
  | getFloat => exact ⟨hF.named hx, h.table _ _ hx⟩
  | getUnknownType => exact ⟨hF.named hx, h.table _ _ hx⟩
  | getRecord name st => exact ⟨hF.named hx, h.table _ _ hx⟩
  | getTypeError message => exact ⟨hF.named hx, h.table _ _ hx⟩
  | getFunction retty args => exact ⟨hF.named hx, h.table _ _ hx⟩
  | embedRecordBodyNoRecursion name body => exact ⟨hF.named hx, h.table _ _ hx⟩

/-- **One call keeps the factory well formed**, and its result is what the tables say. -/
theorem step_spec [DecidableEq S] [Fintype S] {F F' : Factory S} (hF : F.WellFormed) {c : Call S}
    (hargs : ∀ y ∈ c.args, F.Named y) (hmeets : Meets E F c) {x : Id}
    (hrun : step E F c = some (x, F')) :
    F'.WellFormed ∧ Persists F F' ∧ resolveCall E F' c = some x := by
  have hintern : ∀ {n : Node}, (∀ y ∈ n.args, F.Named y) → F.intern n = (x, F') →
      F'.WellFormed ∧ Persists F F' ∧ F'.table n = some x := by
    intro n hn heq
    obtain ⟨hgrow, htable⟩ := @WellFormed.intern S F hF n hn (fun _ => True) fun _ _ => trivial
    rw [heq] at hgrow htable
    exact ⟨hgrow.wellFormed, hgrow.persists, htable⟩
  have hbuilt : ∀ {y : Id} {n : Node}, F.Named y → n.args = [y] →
      (∀ name, n ≠ .record name) → (if F.isInvalid y then (y, F) else F.intern n) = (x, F') →
      F'.WellFormed ∧ Persists F F' ∧
        (if F'.isInvalid y then some y else F'.table n) = some x := by
    intro y n hy hn hrecord heq
    obtain ⟨hgrow, htable⟩ :=
      @resolve_built S F F' (fun _ => False) y n hF hy hn hrecord (by rw [heq])
    rw [heq] at htable
    exact ⟨hgrow.wellFormed, hgrow.persists, htable⟩
  cases c with
  | getBool => exact hintern (fun y hy => absurd hy List.not_mem_nil) (Option.some.inj hrun)
  | getInteger bitsize sign =>
      exact hintern (fun y hy => absurd hy List.not_mem_nil) (Option.some.inj hrun)
  | getFloat => exact hintern (fun y hy => absurd hy List.not_mem_nil) (Option.some.inj hrun)
  | getUnknownType =>
      exact hintern (fun y hy => absurd hy List.not_mem_nil) (Option.some.inj hrun)
  | getPointer pointed memspace =>
      exact hbuilt (hargs pointed List.mem_cons_self) rfl (fun _ => Node.noConfusion)
        (Option.some.inj hrun)
  | getArray elem size =>
      exact hbuilt (hargs elem List.mem_cons_self) rfl (fun _ => Node.noConfusion)
        (Option.some.inj hrun)
  | getRecord name st =>
      cases st with
      | none => exact hintern (fun y hy => absurd hy List.not_mem_nil) (Option.some.inj hrun)
      | some st =>
          obtain ⟨hgrow, htable⟩ := getRecord_spec _ hF hmeets.1 hmeets.2 hrun
          exact ⟨hgrow.wellFormed, hgrow.persists, htable⟩
  | getTypeError message =>
      exact hintern (fun y hy => absurd hy List.not_mem_nil) (Option.some.inj hrun)
  | getFunction retty args => exact hintern hargs (Option.some.inj hrun)
  | cast type sign =>
      have hrecord : RecordSpec E fun st => getRecord E (Fintype.card S + 1) (E.name st) st :=
        recordSpec_getRecord _
      obtain ⟨hgrow, hresolve⟩ := castWith_spec hrecord type hF hmeets hrun
      exact ⟨hgrow.wellFormed, hgrow.persists, hresolve⟩
  | embedRecordBodyNoRecursion name body =>
      have hbody := hF.embedBody name (fun f hf => hargs f.type (List.mem_map_of_mem hf))
      obtain ⟨hgrow, htable⟩ := @WellFormed.intern S _ hbody.wellFormed (.record name)
        (fun y hy => absurd hy List.not_mem_nil) (fun _ => True) fun _ _ => trivial
      have heq : (F.embedBody name body).intern (.record name) = (x, F') := Option.some.inj hrun
      rw [heq] at hgrow htable
      exact ⟨hgrow.wellFormed, hbody.persists.trans hgrow.persists, htable⟩

/-! ## Casts end -/

section Total

variable [DecidableEq S] [Fintype S]

/-- The structs that were not visited yet. -/
def unvisited (F : Factory S) : Nat :=
  (Finset.univ.filter fun s => s ∉ F.visitedRecordTypes).card

omit [DecidableEq S] [Fintype S] in
theorem visited_intern (F : Factory S) (n : Node) :
    (F.intern n).2.visitedRecordTypes = F.visitedRecordTypes := by
  unfold Factory.intern
  split <;> rfl

theorem unvisited_le {F F' : Factory S} (h : F.visitedRecordTypes ⊆ F'.visitedRecordTypes) :
    unvisited F' ≤ unvisited F :=
  Finset.card_le_card fun s hs => by
    rw [Finset.mem_filter] at hs ⊢
    exact ⟨hs.1, fun hmem => hs.2 (h hmem)⟩

theorem unvisited_visit_lt {F : Factory S} {st : S} (h : st ∉ F.visitedRecordTypes) :
    unvisited (F.visit st) < unvisited F := by
  refine Finset.card_lt_card (Finset.ssubset_iff_subset_ne.mpr ⟨fun s hs => ?_, fun heq => ?_⟩)
  · rw [Finset.mem_filter] at hs ⊢
    exact ⟨hs.1, fun hmem => hs.2 (List.mem_cons_of_mem st hmem)⟩
  · have hst : st ∈ Finset.univ.filter fun s => s ∉ F.visitedRecordTypes :=
      Finset.mem_filter.mpr ⟨Finset.mem_univ st, h⟩
    rw [← heq, Finset.mem_filter] at hst
    exact hst.2 List.mem_cons_self

/-- A call has a result, and forgets no visited struct. -/
def Returns {α : Type} (F : Factory S) (run : Option (α × Factory S)) : Prop :=
  ∃ x F', run = some (x, F') ∧ F.visitedRecordTypes ⊆ F'.visitedRecordTypes

/-- `getRecord` returns for every struct while few structs are left. -/
def RecordReturns (record : S → Factory S → Option (Id × Factory S)) (fuel : Nat) : Prop :=
  ∀ s F, unvisited F < fuel → Returns F (record s F)

variable {record : S → Factory S → Option (Id × Factory S)} {fuel : Nat}

omit [DecidableEq S] [Fintype S] in
theorem returns_intern (F : Factory S) (n : Node) : Returns F (some (F.intern n)) :=
  ⟨(F.intern n).1, (F.intern n).2, rfl, (visited_intern F n).symm ▸ fun _ h => h⟩

omit [DecidableEq S] [Fintype S] in
theorem returns_built (F : Factory S) (x : Id) (n : Node) :
    Returns F (some (if F.isInvalid x then (x, F) else F.intern n)) := by
  split
  · exact ⟨_, _, rfl, fun _ h => h⟩
  · exact returns_intern F n

omit [DecidableEq S] [Fintype S] in
theorem returns_recreate (F : Factory S) (name : String) (body : List RecordField) :
    Returns F (some ((F.embedRecordBodyNoRecursion name body).2.create (.record name))) := by
  refine ⟨_, _, rfl, fun s hs => ?_⟩
  show s ∈ ((F.embedBody name body).intern (.record name)).2.visitedRecordTypes
  rw [visited_intern]
  exact hs

omit [DecidableEq S] [Fintype S] in
theorem Returns.of_subset {α : Type} {F F' : Factory S} {run : Option (α × Factory S)}
    (hsub : F.visitedRecordTypes ⊆ F'.visitedRecordTypes) (h : Returns F' run) :
    Returns F run := by
  obtain ⟨x, F₁, hrun, hsub'⟩ := h
  exact ⟨x, F₁, hrun, fun s hs => hsub' (hsub hs)⟩

omit [DecidableEq S] [Fintype S] in
/-- One computation after another. -/
theorem Returns.bind {α β : Type} {F : Factory S} {run : Option (α × Factory S)}
    {next : α × Factory S → Option (β × Factory S)} (hrun : Returns F run)
    (hnext : ∀ x F', F.visitedRecordTypes ⊆ F'.visitedRecordTypes → Returns F' (next (x, F'))) :
    Returns F (run.bind next) := by
  obtain ⟨x, F₁, rfl, hsub⟩ := hrun
  obtain ⟨y, F₂, hy, hsub'⟩ := hnext x F₁ hsub
  exact ⟨y, F₂, hy, fun s hs => hsub' (hsub hs)⟩

theorem castAllWith_returns {ts : List (LlvmType S)}
    (hts : ∀ t ∈ ts, ∀ (sign : Signedness) (F : Factory S), unvisited F < fuel →
      Returns F (castWith record t sign F)) {F : Factory S} (hF : unvisited F < fuel) :
    Returns F (castAllWith record ts F) := by
  induction ts generalizing F with
  | nil => exact ⟨_, _, rfl, fun _ h => h⟩
  | cons t ts ih =>
      rw [castAllWith]
      refine (hts t List.mem_cons_self .unknown F hF).bind fun x F₁ hsub => ?_
      refine Returns.bind (ih (fun u hu => hts u (List.mem_cons_of_mem t hu))
        ((unvisited_le hsub).trans_lt hF)) fun xs F₂ _ => ?_
      exact ⟨_, _, rfl, fun _ h => h⟩

theorem castWith_returns (hrecord : RecordReturns record fuel) (t : LlvmType S)
    (sign : Signedness) (F : Factory S) (hF : unvisited F < fuel) :
    Returns F (castWith record t sign F) := by
  induction t using LlvmType.induction generalizing sign F with
  | void => exact returns_intern F _
  | integer width =>
      rw [castWith]
      split
      · exact returns_intern F _
      · exact returns_intern F _
  | floating => exact returns_intern F _
  | pointer elem ih =>
      rw [castWith]
      exact (ih .unknown F hF).bind fun x F₁ _ => returns_built F₁ x _
  | array elem size ih =>
      rw [castWith]
      exact (ih .unknown F hF).bind fun x F₁ _ => returns_built F₁ x _
  | vector elem size ih =>
      rw [castWith]
      exact (ih .unknown F hF).bind fun x F₁ _ => returns_built F₁ x _
  | struct str => exact hrecord str F hF
  | metadata => exact returns_intern F _
  | function ret params ihret ihparams =>
      rw [castWith]
      refine (ihret .unknown F hF).bind fun r F₁ hsub => ?_
      refine Returns.bind (castAllWith_returns ihparams ((unvisited_le hsub).trans_lt hF))
        fun xs F₂ _ => ?_
      exact returns_intern F₂ _
  | other text => exact returns_intern F _

/-- **`getRecord` returns**: the structs whose fields are being cast are visited ones. -/
theorem getRecord_returns (E : Env S) (fuel : Nat) (name : String) (st : S) (F : Factory S)
    (hF : unvisited F < fuel) : Returns F (getRecord E fuel name st F) := by
  induction fuel generalizing name st F with
  | zero => exact absurd hF (Nat.not_lt_zero _)
  | succ fuel ih =>
      rw [getRecord]
      split
      · exact ⟨_, _, rfl, fun _ h => h⟩
      · split
        · next hfresh =>
            rw [Bool.and_eq_true, Bool.not_eq_true', List.contains_eq_mem,
              decide_eq_false_iff_not] at hfresh
            have hlt := unvisited_visit_lt hfresh.2
            have hvisit : F.visitedRecordTypes ⊆ (F.visit st).visitedRecordTypes :=
              fun _ h => List.mem_cons_of_mem st h
            split
            · refine ⟨_, _, rfl, fun s hs => ?_⟩
              show s ∈ ((F.visit st).intern .unknownType).2.visitedRecordTypes
              rw [visited_intern]
              exact hvisit hs
            · have hcast : Returns (F.visit st) (castAllWith
                  (fun st => getRecord E fuel (E.name st) st) (E.struct st).elements (F.visit st)) :=
                castAllWith_returns (fun t _ => castWith_returns (fun s => ih (E.name s) s) t)
                  (by omega)
              refine Returns.of_subset hvisit ?_
              exact hcast.bind fun xs F₁ _ => returns_recreate F₁ name _
        · exact ⟨_, _, rfl, fun _ h => h⟩

/-- **Every call returns.** -/
theorem step_returns (E : Env S) (F : Factory S) (c : Call S) : Returns F (step E F c) := by
  have hcard : unvisited F < Fintype.card S + 1 := Nat.lt_succ_of_le (Finset.card_le_univ _)
  cases c with
  | getPointer pointed memspace => exact returns_built F pointed _
  | getArray elem size => exact returns_built F elem _
  | getRecord name st =>
      cases st with
      | none => exact returns_intern F _
      | some st => exact getRecord_returns E _ name st F hcard
  | cast type sign =>
      exact castWith_returns (fun s F hF => getRecord_returns E _ (E.name s) s F hF) type sign F
        hcard
  | embedRecordBodyNoRecursion name body => exact returns_intern (F.embedBody name body) _
  | getBool => exact returns_intern F _
  | getInteger bitsize sign => exact returns_intern F _
  | getFloat => exact returns_intern F _
  | getUnknownType => exact returns_intern F _
  | getTypeError message => exact returns_intern F _
  | getFunction retty args => exact returns_intern F _

end Total

/-! ## Merging -/

/-- Merging two types in both orders gives the same type, or two type errors. -/
def MergeAgrees (E : Env S) (F : Factory S) (a b : Id) : Prop :=
  (merge E F a b).1 = (merge E (merge E F a b).2 b a).1 ∨
    ((merge E (merge E F a b).2 b a).2.isInvalid (merge E F a b).1 = true ∧
      (merge E (merge E F a b).2 b a).2.isInvalid (merge E (merge E F a b).2 b a).1 = true)

/-- Pointers to one type in different memory spaces. -/
def DifferInMemspace (F : Factory S) (a b : Id) : Prop :=
  ∃ pointed memspace memspace', F.node a = some (.pointer pointed memspace) ∧
    F.node b = some (.pointer pointed memspace') ∧ memspace ≠ memspace'

/-- `merge` of two different types that are neither errors nor unknown. -/
def mergeNodes (E : Env S) (F : Factory S) (one two : Id) : Node → Node → Id × Factory S
  | .integer bitsize _, .integer bitsize' _ => F.getInteger (max bitsize bitsize') .unknown
  | .pointer _ _, .integer _ _ => (one, F)
  | .integer _ _, .pointer _ _ => (two, F)
  | .pointer pointed _, .pointer pointed' _ =>
    if pointed = pointed' then (one, F)
    else (F.getUnknownType).2.getPointer (F.getUnknownType).1 0
  | _, _ => F.getTypeError ("Unmergeable types: " ++ E.toString F one ++ " and " ++ E.toString F two)

theorem merge_eq_mergeNodes {F : Factory S} {a b : Id} {n n' : Node} (hn : F.node a = some n)
    (hn' : F.node b = some n') (ha : F.isInvalid a = false) (hb : F.isInvalid b = false)
    (hua : F.isUnknown a = false) (hub : F.isUnknown b = false) (hab : a ≠ b) :
    merge E F a b = mergeNodes E F a b n n' := by
  rw [merge, ha, hb, hua, hub, hn, hn']
  simp only [Bool.false_eq_true, if_false, if_neg hab]
  cases n <;> cases n' <;> rfl

theorem isUnknown_iff {F : Factory S} {x : Id} :
    F.isUnknown x = true ↔ F.node x = some .unknownType := by
  rw [isUnknown, beq_iff_eq]

theorem isUnknown_persists {F F' : Factory S} (h : Persists F F') {x : Id} (hx : F.Named x) :
    F'.isUnknown x = F.isUnknown x := by
  obtain ⟨n, hn, -⟩ := hx
  rw [isUnknown, isUnknown, hn, h.node x n hn]

/-- Looking a type up again gives the same object. -/
theorem intern_again {F F' : Factory S} (h : Persists F F') {n : Node} {x : Id}
    (hx : F.table n = some x) : F'.intern n = (x, F') := by
  rw [Factory.intern, h.table n x hx]

/-- Two types with a common node are the same. -/
theorem eq_of_node {F : Factory S} {a b : Id} {n : Node} (ha : F.Named a) (hb : F.Named b)
    (hna : F.node a = some n) (hnb : F.node b = some n) : a = b := by
  obtain ⟨m, hm, hta⟩ := ha
  obtain ⟨m', hm', htb⟩ := hb
  obtain rfl := Option.some.inj (hna.symm.trans hm)
  obtain rfl := Option.some.inj (hnb.symm.trans hm')
  exact Option.some.inj (hta.symm.trans htb)

theorem isInvalid_of_typeError {F : Factory S} (hF : F.WellFormed) {message : String} {x : Id}
    (hx : F.table (.typeError message) = some x) : F.isInvalid x = true := by
  rcases hF.table _ _ hx with h | ⟨⟨_, h⟩, -⟩
  · rw [isInvalid, h]
  · exact Node.noConfusion h

/-- The merged type of two pointers to different types. -/
theorem grow_mergedPointer {F : Factory S} (hF : F.WellFormed) :
    ∃ u x F', (F.getUnknownType).2.getPointer (F.getUnknownType).1 0 = (x, F') ∧
      F'.WellFormed ∧ Persists F F' ∧ F'.table .unknownType = some u ∧
        F'.isInvalid u = false ∧ F'.table (.pointer u 0) = some x := by
  obtain ⟨hgrow, hu⟩ := @WellFormed.intern S F hF .unknownType
    (fun y hy => absurd hy List.not_mem_nil) (fun _ => False) (fun _ hname => Node.noConfusion hname)
  have hnamed := hgrow.wellFormed.named hu
  have hvalid : (F.intern .unknownType).2.isInvalid (F.intern .unknownType).1 = false := by
    rcases hgrow.wellFormed.table _ _ hu with h | ⟨⟨_, h⟩, -⟩
    · rw [isInvalid, h]
    · exact Node.noConfusion h
  obtain ⟨hgrow', hx⟩ := @WellFormed.intern S _ hgrow.wellFormed
    (.pointer (F.intern .unknownType).1 0)
    (fun y hy => by rw [List.mem_singleton.mp hy]; exact hnamed) (fun _ => False)
    (fun _ hname => Node.noConfusion hname)
  refine ⟨(F.intern .unknownType).1, _, _, ?_, hgrow'.wellFormed,
    hgrow.persists.trans hgrow'.persists, hgrow'.persists.table _ _ hu,
    (isInvalid_persists hgrow'.persists hnamed).trans hvalid, hx⟩
  rw [getUnknownType, getPointer, hvalid, if_neg Bool.false_ne_true]

/-- Merging two different types that are neither errors nor unknown. -/
theorem mergeAgrees_concrete (E : Env S) {F : Factory S} (hF : F.WellFormed) {a b : Id}
    (ha : F.Named a) (hb : F.Named b) {n n' : Node} (hn : F.node a = some n)
    (hn' : F.node b = some n') (hia : F.isInvalid a = false) (hib : F.isInvalid b = false)
    (hua : F.isUnknown a = false) (hub : F.isUnknown b = false) (hab : a ≠ b) :
    MergeAgrees E F a b ↔ ¬ DifferInMemspace F a b := by
  have hmerge := merge_eq_mergeNodes (E := E) hn hn' hia hib hua hub hab
  have hmerge' : ∀ {F' : Factory S}, Persists F F' → merge E F' b a = mergeNodes E F' b a n' n := by
    intro F' h
    exact merge_eq_mergeNodes (h.node _ _ hn') (h.node _ _ hn)
      ((isInvalid_persists h hb).trans hib) ((isInvalid_persists h ha).trans hia)
      ((isUnknown_persists h hb).trans hub) ((isUnknown_persists h ha).trans hua) (Ne.symm hab)
  have hnot : (∀ p m p' m', n = .pointer p m → n' ≠ .pointer p' m') →
      ¬ DifferInMemspace F a b := by
    rintro h ⟨p, m, m', hp, hp', -⟩
    exact h p m p m' (Option.some.inj (hn.symm.trans hp)) (Option.some.inj (hn'.symm.trans hp'))
  -- one argument is returned in both orders
  have hreturn : ∀ c, (∀ F, mergeNodes E F a b n n' = (c, F)) →
      (∀ F, mergeNodes E F b a n' n = (c, F)) → MergeAgrees E F a b := by
    intro c h h'
    refine Or.inl ?_
    rw [hmerge, h, hmerge' (Persists.refl F), h']
  -- both orders are type errors
  have herror : (∀ F, ∃ message, mergeNodes E F a b n n' = F.getTypeError message) →
      (∀ F, ∃ message, mergeNodes E F b a n' n = F.getTypeError message) →
      MergeAgrees E F a b := by
    intro h h'
    obtain ⟨message, hm⟩ := h F
    obtain ⟨hgrow, hx⟩ := @WellFormed.intern S F hF (.typeError message)
      (fun y hy => absurd hy List.not_mem_nil) (fun _ => False)
      (fun _ hname => Node.noConfusion hname)
    obtain ⟨message', hm'⟩ := h' (F.intern (.typeError message)).2
    obtain ⟨hgrow', hx'⟩ := @WellFormed.intern S _ hgrow.wellFormed (.typeError message')
      (fun y hy => absurd hy List.not_mem_nil) (fun _ => False)
      (fun _ hname => Node.noConfusion hname)
    refine Or.inr ?_
    rw [hmerge, hm, getTypeError, hmerge' hgrow.persists, hm', getTypeError]
    exact ⟨isInvalid_of_typeError hgrow'.wellFormed (hgrow'.persists.table _ _ hx),
      isInvalid_of_typeError hgrow'.wellFormed hx'⟩
  cases n with
  | integer bitsize sign =>
      cases n' with
      | integer bitsize' sign' =>
          refine iff_of_true (Or.inl ?_) (hnot (fun _ _ _ _ h => Node.noConfusion h))
          obtain ⟨hgrow, hx⟩ := @WellFormed.intern S F hF (.integer (max bitsize bitsize') .unknown)
            (fun y hy => absurd hy List.not_mem_nil) (fun _ => False)
            (fun _ hname => Node.noConfusion hname)
          rw [hmerge, mergeNodes, getInteger, hmerge' hgrow.persists, mergeNodes, getInteger,
            max_comm bitsize' bitsize, intern_again (Persists.refl _) hx]
      | pointer p m =>
          exact iff_of_true (hreturn b (fun _ => rfl) fun _ => rfl)
            (hnot (fun _ _ _ _ h => Node.noConfusion h))
      | _ =>
          exact iff_of_true (herror (fun _ => ⟨_, rfl⟩) fun _ => ⟨_, rfl⟩)
            (hnot (fun _ _ _ _ h => Node.noConfusion h))
  | pointer p m =>
      cases n' with
      | integer bitsize sign =>
          exact iff_of_true (hreturn a (fun _ => rfl) fun _ => rfl)
            (hnot (fun _ _ _ _ _ h => Node.noConfusion h))
      | pointer p' m' =>
          by_cases hp : p = p'
          · subst hp
            have hfirst : merge E F a b = (a, F) := by rw [hmerge, mergeNodes, if_pos rfl]
            have hsecond : merge E F b a = (b, F) := by
              rw [hmerge' (Persists.refl F), mergeNodes, if_pos rfl]
            refine iff_of_false ?_ (not_not.mpr ⟨p, m, m', hn, hn', ?_⟩)
            · rw [MergeAgrees, hfirst, hsecond]
              rintro (h | h)
              · exact hab h
              · exact Bool.noConfusion (hia.symm.trans h.1)
            · -- with one memory space they would be one pointer
              rintro rfl
              exact hab (eq_of_node ha hb hn hn')
          · refine iff_of_true (Or.inl ?_) ?_
            · obtain ⟨u, x, F', hfirst, hF', hpersists, hu, hvalid, hx⟩ := grow_mergedPointer hF
              rw [hmerge, mergeNodes, if_neg hp, hfirst, hmerge' hpersists, mergeNodes,
                if_neg (Ne.symm hp), getUnknownType, intern_again (Persists.refl _) hu]
              simp only
              rw [getPointer, hvalid, if_neg Bool.false_ne_true,
                intern_again (Persists.refl _) hx]
            · rintro ⟨q, k, k', hq, hq', -⟩
              have h := (Node.pointer.inj (Option.some.inj (hn.symm.trans hq))).1
              have h' := (Node.pointer.inj (Option.some.inj (hn'.symm.trans hq'))).1
              exact hp (h.trans h'.symm)
      | _ =>
          exact iff_of_true (herror (fun _ => ⟨_, rfl⟩) fun _ => ⟨_, rfl⟩)
            (hnot (fun _ _ _ _ _ h => Node.noConfusion h))
  | _ =>
      cases n' <;>
      exact iff_of_true (herror (fun _ => ⟨_, rfl⟩) fun _ => ⟨_, rfl⟩)
        (hnot (fun _ _ _ _ h => Node.noConfusion h))

/-- **Merging does not depend on the order**, but for pointers to one type in different memory
spaces. -/
theorem mergeAgrees_iff (E : Env S) {F : Factory S} (hF : F.WellFormed) {a b : Id}
    (ha : F.Named a) (hb : F.Named b) : MergeAgrees E F a b ↔ ¬ DifferInMemspace F a b := by
  obtain ⟨n, hn, hta⟩ := id ha
  obtain ⟨n', hn', htb⟩ := id hb
  -- where both merges return one of the arguments and change nothing
  have hsame : ∀ c, merge E F a b = (c, F) → merge E F b a = (c, F) → MergeAgrees E F a b := by
    intro c h h'
    refine Or.inl ?_
    rw [h, h']
  have hpointer : ∀ {c : Id} {p m : Nat}, F.node c = some (.pointer p m) →
      F.isInvalid c = false ∧ F.isUnknown c = false := by
    intro c p m hc
    rw [isInvalid, isUnknown, hc]
    exact ⟨rfl, rfl⟩
  by_cases hia : F.isInvalid a = true
  · refine iff_of_true ?_ fun ⟨_, _, _, h, _⟩ =>
      Bool.noConfusion (hia.symm.trans (hpointer h).1)
    have hmerge : merge E F a b = (a, F) := if_pos hia
    by_cases hib : F.isInvalid b = true
    · have hmerge' : merge E F b a = (b, F) := if_pos hib
      refine Or.inr ?_
      rw [hmerge, hmerge']
      exact ⟨hia, hib⟩
    · exact hsame a hmerge ((if_neg hib).trans (if_pos hia))
  by_cases hib : F.isInvalid b = true
  · refine iff_of_true (hsame b ((if_neg hia).trans (if_pos hib)) (if_pos hib)) ?_
    exact fun ⟨_, _, _, _, h, _⟩ => Bool.noConfusion (hib.symm.trans (hpointer h).1)
  by_cases hua : F.isUnknown a = true
  · refine iff_of_true ?_ fun ⟨_, _, _, h, _⟩ =>
      Bool.noConfusion (hua.symm.trans (hpointer h).2)
    have hmerge : merge E F a b = (b, F) := by
      rw [merge, if_neg hia, if_neg hib, if_pos hua]
    by_cases hub : F.isUnknown b = true
    · -- there is one unknown type
      have hab : a = b := eq_of_node ha hb (isUnknown_iff.mp hua) (isUnknown_iff.mp hub)
      exact hsame b hmerge (by rw [merge, if_neg hib, if_neg hia, if_pos hub, hab])
    · exact hsame b hmerge (by rw [merge, if_neg hib, if_neg hia, if_neg hub, if_pos hua])
  by_cases hub : F.isUnknown b = true
  · refine iff_of_true (hsame a ?_ ?_) fun ⟨_, _, _, _, h, _⟩ =>
      Bool.noConfusion (hub.symm.trans (hpointer h).2)
    · rw [merge, if_neg hia, if_neg hib, if_neg hua, if_pos hub]
    · rw [merge, if_neg hib, if_neg hia, if_pos hub]
  by_cases hab : a = b
  · subst hab
    have hmerge : merge E F a a = (a, F) := by
      rw [merge, if_neg hia, if_neg hia, if_neg hua, if_neg hua, if_pos rfl]
    refine iff_of_true (hsame a hmerge hmerge) fun ⟨_, _, _, h, h', hne⟩ => hne ?_
    exact (Node.pointer.inj (Option.some.inj (h.symm.trans h'))).2
  rw [Bool.not_eq_true] at hia hib hua hub
  exact mergeAgrees_concrete E hF ha hb hn hn' hia hib hua hub hab

/-! ## Every run is canonical -/

section Canonical

variable [DecidableEq S] [Fintype S]

omit [DecidableEq S] [Fintype S] in
/-- What a client has is named. -/
theorem named_of_given {log : List (Call S × Id)} {F : Factory S} (hF : F.WellFormed)
    (hlog : ∀ c x, (c, x) ∈ log → F.Named x) {x : Id} (hx : Given log F x) : F.Named x := by
  induction hx with
  | result hmem => exact hlog _ _ hmem
  | field hbody hf => exact hF.bodies _ _ hbody _ hf
  | arg _ hn hy ih => exact hF.named_args ih hn _ hy

/-- **In every run the tables answer every call that was made with its result.** -/
theorem run_spec {log : List (Call S × Id)} {F : Factory S} (hrun : Run E (Meets E) log F) :
    F.WellFormed ∧ ∀ c x, (c, x) ∈ log →
      F.Named x ∧ (∀ y ∈ c.args, F.Named y) ∧ resolveCall E F c = some x := by
  induction hrun with
  | start =>
      refine ⟨⟨fun n x h => absurd h.symm (Option.some_ne_none _),
        fun n x h => absurd h.symm (Option.some_ne_none _),
        fun name body h => absurd h.symm (Option.some_ne_none _)⟩, fun c x h => ?_⟩
      exact absurd h List.not_mem_nil
  | @call log F F' c x _ hargs hmeets hstep ih =>
      obtain ⟨hF, hlog⟩ := ih
      have hnamed : ∀ y ∈ c.args, F.Named y := fun y hy =>
        named_of_given hF (fun c x h => (hlog c x h).1) (hargs y hy)
      obtain ⟨hF', hpersists, hresolve⟩ := step_spec hF hnamed hmeets hstep
      refine ⟨hF', fun c' x' hmem => ?_⟩
      rcases List.mem_append.mp hmem with hmem | hmem
      · obtain ⟨hx', hargs', hresolve'⟩ := hlog c' x' hmem
        exact ⟨hpersists.named hx', fun y hy => hpersists.named (hargs' y hy),
          (resolveCall_persists hF hpersists hargs' hresolve').2⟩
      · obtain ⟨rfl, rfl⟩ := Prod.mk.inj (List.mem_singleton.mp hmem)
        have hargs' : ∀ y ∈ c'.args, F'.Named y := fun y hy => hpersists.named (hnamed y hy)
        exact ⟨(resolveCall_persists hF' (Persists.refl F') hargs' hresolve).1, hargs', hresolve⟩

/-- **Types are canonical.**  In every run that casts no recursive struct, types with the same
structure are one object, equal calls have equal results, merging does not depend on the order but
for memory spaces, and every call returns. -/
theorem types_canonical {log : List (Call S × Id)} {F : Factory S}
    (hrun : Run E (Meets E) log F) :
    (∀ x y, Given log F x → Given log F y → F.SameType x y → x = y) ∧
      (∀ c x y, (c, x) ∈ log → (c, y) ∈ log → x = y) ∧
      (∀ a b, Given log F a → Given log F b →
        (MergeAgrees E F a b ↔ ¬ DifferInMemspace F a b)) ∧
      ∀ c, Returns F (step E F c) := by
  obtain ⟨hF, hlog⟩ := run_spec hrun
  have hnamed : ∀ x, Given log F x → F.Named x := fun x hx =>
    named_of_given hF (fun c x h => (hlog c x h).1) hx
  refine ⟨fun x y hx hy h => hF.eq_of_sameType h (hnamed x hx) (hnamed y hy),
    fun c x y hx hy => ?_, fun a b ha hb => mergeAgrees_iff E hF (hnamed a ha) (hnamed b hb),
    step_returns E F⟩
  exact Option.some.inj ((hlog c x hx).2.2.symm.trans (hlog c y hy).2.2)

end Canonical

/-! ## A struct with a pointer to itself -/

/-- A module with one struct of these elements. -/
def oneStruct (elements : List (LlvmType Unit)) : Env Unit where
  struct _ := { structName := some "node", printed := "", isOpaque := false, elements,
                elementOffset := fun ix => 64 * ix }
  toString _ _ := ""

/-- A pair of a number and a pointer to a byte. -/
def pairEnv : Env Unit := oneStruct [.integer 32, .pointer (.integer 8)]

/-- A list cell. -/
def listEnv : Env Unit := oneStruct [.pointer (.struct ())]

theorem pair_canonical : ∃ log F, Run pairEnv (Meets pairEnv) log F ∧ log.length = 1 ∧
    ∀ x y, Given log F x → Given log F y → F.SameType x y → x = y := by
  have hmeets : Meets pairEnv .empty (.cast (.struct ()) .unknown) := by
    intro s _ _ t ht s' hs'
    -- the elements mention no struct
    have hno : ∀ u, ¬ Mentions t u := by
      intro u hu
      rcases List.mem_cons.mp ht with rfl | ht
      · cases hu
      · obtain rfl := List.mem_singleton.mp ht
        cases hu with
        | pointer hu => cases hu
    cases hs' with
    | here hu => exact absurd hu (hno _)
    | field hu => exact absurd hu (hno _)
  have hrun := Run.call (E := pairEnv) .start (fun y hy => absurd hy List.not_mem_nil) hmeets rfl
  exact ⟨_, _, hrun, rfl, (types_canonical hrun).1⟩

/-- **A list cell has two records**: the one its field points to, and the one that the cast
returns. -/
theorem listCell_twice : ¬ ∀ (log : List (Call Unit × Id)) (F : Factory Unit),
    Run listEnv (fun _ _ => True) log F →
      ∀ x y, Given log F x → Given log F y → F.SameType x y → x = y := by
  intro hall
  have hstep : ∃ F', step listEnv .empty (.cast (.struct ()) .unknown) = some (2, F') ∧
      F'.recordBodies "node" = some [⟨1, 0⟩] ∧ F'.node 2 = some (.record "node") ∧
        F'.node 1 = some (.pointer 0 0) ∧ F'.node 0 = some (.record "node") :=
    ⟨_, rfl, rfl, rfl, rfl, rfl⟩
  obtain ⟨F, hstep, hbody, hresult, hfield, hpointed⟩ := hstep
  have hrun : Run listEnv (fun _ _ => True) [(.cast (.struct ()) .unknown, 2)] F :=
    .call .start (fun y hy => absurd hy List.not_mem_nil) trivial hstep
  have hone : Given [(.cast (.struct ()) .unknown, 2)] F 1 := .field hbody List.mem_cons_self
  have hzero := hone.arg hfield List.mem_cons_self
  refine absurd (hall _ F hrun 0 2 hzero (.result List.mem_cons_self) ?_) (by decide)
  exact .mk hpointed hresult rfl fun k a b ha _ => absurd ha.symm (Option.some_ne_none _)

end TypeFactory

end Borealis
