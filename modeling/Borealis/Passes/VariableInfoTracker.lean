import Mathlib.Data.List.Induction
import Mathlib.Data.Prod.Lex

/-!
# Variables by name and position

`Codegen/VarInfoContainer.h` and `Passes/Tracker/VariableInfoTracker.h`: the declarations of a
program are kept in multimaps by value, by name and by position, and `locate` finds the value of a
name that is used at a position of the source.

File names are interned, and positions compare them by their numbers, so they are a type with some
linear order here; the types of variables are of any type.

## Strategy

`locate` walks through the entries by position, and each one that is found is the entry of a
declaration of the name (`entry_eq_some`, `entry_isSome`).  The first one in the walk is the last
declaration before the position, whatever its scope (`locate_eq`), and C scoping asks for the last
one of those whose block has not ended.
-/

namespace Borealis

/-- A line and a column. -/
abbrev LocalLocus := ℕ ×ₗ ℕ

/-- A position: the file, the line and the column, compared in this order. -/
abbrev Locus (File : Type) := File ×ₗ LocalLocus

/-- The class of an `llvm::Value`. -/
inductive ValueClass where
  | function | argument | globalVariable | other
deriving DecidableEq, Repr

/-- `llvm::Value*`, when it is not null. -/
structure LLVMValue where
  id : ℕ
  cls : ValueClass
deriving DecidableEq, Repr

/-- `StorageSpec`. -/
inductive StorageSpec where
  | register | memory | unknown
deriving DecidableEq, Repr

/-- The fields of `VarInfo` that `locate` reads. -/
structure VarInfo (File CType : Type) where
  name : String
  locus : Locus File
  storage : StorageSpec
  type : CType

/-- `VarInfoContainer`: the contents of its multimaps in the order of their iterators. -/
structure VarInfoContainer (File CType : Type) where
  fwd : List (LLVMValue × VarInfo File CType) := []
  bwdNames : List (String × LLVMValue) := []
  bwdLocs : List (Locus File × LLVMValue) := []

/-- `DiscoveryPolicy`. -/
inductive DiscoveryPolicy where
  | nextVal | previousVal | nextFunction | previousFunction | nextArgument | previousArgument
  | loop | global
deriving DecidableEq, Repr

/-- `ValueDescriptor`; nothing is a null pointer. -/
structure ValueDescriptor (CType : Type) where
  val : Option LLVMValue
  type : Option CType
  shouldBeDereferenced : Bool
deriving DecidableEq

namespace ValueDescriptor

/-- `ValueDescriptor{ nullptr, nullptr, false }`. -/
def invalid {CType : Type} : ValueDescriptor CType := ⟨none, none, false⟩

/-- `isInvalid`. -/
def isInvalid {CType : Type} (d : ValueDescriptor CType) : Bool := d.val.isNone

@[simp] theorem isInvalid_invalid {CType : Type} :
    (invalid : ValueDescriptor CType).isInvalid = true := rfl

/-- The descriptor of a value by the record of a declaration. -/
def ofInfo {File CType : Type} (val : LLVMValue) (varInfo : VarInfo File CType) :
    ValueDescriptor CType :=
  ⟨some val, some varInfo.type, varInfo.storage = .memory⟩

end ValueDescriptor

variable {File CType : Type} [LinearOrder File]

namespace VarInfoContainer

/-- `std::multimap::insert`: behind the entries with the same key. -/
def insertLoc (l : List (Locus File × LLVMValue)) (e : Locus File × LLVMValue) :
    List (Locus File × LLVMValue) :=
  l.takeWhile (fun e' => e'.1 ≤ e.1) ++ e :: l.dropWhile (fun e' => e'.1 ≤ e.1)

/-- `put`. -/
def put (vars : VarInfoContainer File CType) (val : LLVMValue) (vi : VarInfo File CType) :
    VarInfoContainer File CType where
  fwd := vars.fwd ++ [(val, vi)]
  bwdNames := vars.bwdNames ++ [(vi.name, val)]
  bwdLocs := insertLoc vars.bwdLocs (vi.locus, val)

/-- The container after the declarations were recorded. -/
def ofRecords (records : List (LLVMValue × VarInfo File CType)) : VarInfoContainer File CType :=
  records.foldl (fun vars r => vars.put r.1 r.2) {}

/-- `get`. -/
def get (vars : VarInfoContainer File CType) (val : LLVMValue) :
    List (LLVMValue × VarInfo File CType) :=
  vars.fwd.filter fun e => e.1 = val

/-- `byName`. -/
def byName (vars : VarInfoContainer File CType) (name : String) : List (String × LLVMValue) :=
  vars.bwdNames.filter fun e => e.1 = name

/-- From `byLocFwd`, the lower bound, to `byLocEnd`. -/
def byLocFwd (vars : VarInfoContainer File CType) (loc : Locus File) :
    List (Locus File × LLVMValue) :=
  vars.bwdLocs.dropWhile fun e => e.1 < loc

/-- From `byLocReverse` to `byLocReverseEnd`. -/
def byLocReverse (vars : VarInfoContainer File CType) (loc : Locus File) :
    List (Locus File × LLVMValue) :=
  (vars.bwdLocs.takeWhile fun e => e.1 < loc).reverse

/-- What `locate_simple` returns at an entry by position, if it returns there. -/
def entry (vars : VarInfoContainer File CType) (name : String) (f : LLVMValue → Bool)
    (byLoc : Locus File × LLVMValue) : Option (ValueDescriptor CType) :=
  if ¬ f byLoc.2 then none
  else (vars.byName name).findSome? fun byName =>
    if byLoc.2 ≠ byName.2 then none
    else (vars.get byLoc.2).findSome? fun pr =>
      if pr.2.locus = byLoc.1 ∧ pr.2.name = byName.1 then some (.ofInfo byLoc.2 pr.2) else none

/-- `locate_simple`. -/
def locateSimple (vars : VarInfoContainer File CType) (name : String)
    (range : List (Locus File × LLVMValue)) (f : LLVMValue → Bool) : ValueDescriptor CType :=
  (range.findSome? (vars.entry name f)).getD .invalid

/-- `isFunc`. -/
def isFunc (v : LLVMValue) : Bool := v.cls = .function

/-- `isNotFunc`. -/
def isNotFunc (v : LLVMValue) : Bool := !isFunc v

/-- `isArg`. -/
def isArg (v : LLVMValue) : Bool := v.cls = .argument

/-- `isGlobal`. -/
def isGlobal (v : LLVMValue) : Bool := v.cls = .globalVariable

/-- The walk of a policy; there is none for `Loop`. -/
def discover (vars : VarInfoContainer File CType) (name : String) (loc : Locus File) :
    DiscoveryPolicy → Option (ValueDescriptor CType)
  | .nextVal => some (vars.locateSimple name (vars.byLocFwd loc) isNotFunc)
  | .previousVal => some (vars.locateSimple name (vars.byLocReverse loc) isNotFunc)
  | .nextFunction => some (vars.locateSimple name (vars.byLocFwd loc) isFunc)
  | .previousFunction => some (vars.locateSimple name (vars.byLocReverse loc) isFunc)
  | .nextArgument => some (vars.locateSimple name (vars.byLocFwd loc) isArg)
  | .previousArgument => some (vars.locateSimple name (vars.byLocReverse loc) isArg)
  | .global => some (vars.locateSimple name vars.bwdLocs isGlobal)
  | .loop => none

/-- `locate`; nothing stands for the failure on an unknown policy. -/
def locate (vars : VarInfoContainer File CType) (name : String) (loc : Locus File)
    (policy : DiscoveryPolicy) : Option (ValueDescriptor CType) :=
  (vars.discover name loc policy).map fun res =>
    if res.isInvalid then vars.locateSimple name vars.bwdLocs isGlobal else res

/-! ## The contents of the container -/

/-- The multimaps of the container hold the records. -/
structure Holds (vars : VarInfoContainer File CType)
    (records : List (LLVMValue × VarInfo File CType)) : Prop where
  fwd : vars.fwd = records
  names : vars.bwdNames = records.map fun r => (r.2.name, r.1)
  mem_locs : ∀ e, e ∈ vars.bwdLocs ↔ ∃ r ∈ records, e = (r.2.locus, r.1)
  sorted : vars.bwdLocs.Pairwise fun e e' => e.1 ≤ e'.1

theorem mem_insertLoc {l : List (Locus File × LLVMValue)} {e x : Locus File × LLVMValue} :
    x ∈ insertLoc l e ↔ x = e ∨ x ∈ l := by
  conv_rhs => rw [← List.takeWhile_append_dropWhile (p := fun e' => decide (e'.1 ≤ e.1)) (l := l)]
  simp only [insertLoc, List.mem_append, List.mem_cons]
  tauto

theorem sorted_insertLoc {l : List (Locus File × LLVMValue)} {e : Locus File × LLVMValue}
    (hl : l.Pairwise fun e e' => e.1 ≤ e'.1) :
    (insertLoc l e).Pairwise fun e e' => e.1 ≤ e'.1 := by
  induction l with
  | nil => simp [insertLoc]
  | cons x l ih =>
      obtain ⟨hx, hl⟩ := List.pairwise_cons.mp hl
      by_cases hle : x.1 ≤ e.1
      · have hcons : insertLoc (x :: l) e = x :: insertLoc l e := by simp [insertLoc, hle]
        rw [hcons]
        refine List.pairwise_cons.mpr ⟨fun y hy => ?_, ih hl⟩
        rcases mem_insertLoc.mp hy with rfl | hy
        · exact hle
        · exact hx y hy
      · have hcons : insertLoc (x :: l) e = e :: x :: l := by simp [insertLoc, hle]
        have hlt : e.1 < x.1 := lt_of_not_ge hle
        rw [hcons]
        refine List.pairwise_cons.mpr ⟨fun y hy => ?_, List.pairwise_cons.mpr ⟨hx, hl⟩⟩
        rcases List.mem_cons.mp hy with rfl | hy
        · exact hlt.le
        · exact hlt.le.trans (hx y hy)

theorem holds_ofRecords (records : List (LLVMValue × VarInfo File CType)) :
    (ofRecords records).Holds records := by
  induction records using List.reverseRec with
  | nil => exact ⟨rfl, rfl, by simp [ofRecords], by simp [ofRecords]⟩
  | append_singleton records r ih =>
      have hput : ofRecords (records ++ [r]) = (ofRecords records).put r.1 r.2 := by
        simp [ofRecords]
      rw [hput]
      refine ⟨by simp [put, ih.fwd], by simp [put, ih.names], fun e => ?_, ?_⟩
      · simp only [put, mem_insertLoc, ih.mem_locs, List.mem_append, List.mem_singleton]
        constructor
        · rintro (rfl | ⟨r', hr', rfl⟩)
          · exact ⟨r, Or.inr rfl, rfl⟩
          · exact ⟨r', Or.inl hr', rfl⟩
        · rintro ⟨r', hr' | rfl, rfl⟩
          · exact Or.inr ⟨r', hr', rfl⟩
          · exact Or.inl rfl
      · exact sorted_insertLoc ih.sorted

/-! ## The walks -/

section Walk

variable {vars : VarInfoContainer File CType} {records : List (LLVMValue × VarInfo File CType)}
  {name : String} {f : LLVMValue → Bool}

/-- The entry that is found is the one of a record. -/
theorem entry_eq_some (hv : vars.Holds records) {e : Locus File × LLVMValue}
    {d : ValueDescriptor CType} (he : vars.entry name f e = some d) :
    f e.2 = true ∧ ∃ r ∈ records, r.2.name = name ∧ e = (r.2.locus, r.1) ∧
      d = .ofInfo r.1 r.2 := by
  unfold entry at he
  split at he
  · cases he
  next hf =>
  obtain ⟨byName, hbyName, he⟩ := List.exists_of_findSome?_eq_some he
  split at he
  · cases he
  obtain ⟨pr, hpr, he⟩ := List.exists_of_findSome?_eq_some he
  obtain ⟨hpr, hval⟩ := List.mem_filter.mp hpr
  obtain ⟨-, hname⟩ := List.mem_filter.mp hbyName
  split at he
  · next hinfo =>
      have hval : pr.1 = e.2 := by simpa using hval
      have hname : byName.1 = name := by simpa using hname
      refine ⟨by simpa using hf, pr, hv.fwd ▸ hpr, hinfo.2.trans hname, ?_, ?_⟩
      · exact Prod.ext hinfo.1.symm hval.symm
      · rw [← Option.some.inj he, hval]
  · cases he

/-- The entry of a record of the name is found. -/
theorem entry_isSome (hv : vars.Holds records) {r : LLVMValue × VarInfo File CType}
    (hr : r ∈ records) (hname : r.2.name = name) (hf : f r.1 = true) :
    vars.entry name f (r.2.locus, r.1) ≠ none := by
  unfold entry
  rw [if_neg (by simpa using hf)]
  intro hnone
  have hbyName : (name, r.1) ∈ vars.byName name := by
    refine List.mem_filter.mpr ⟨?_, by simp⟩
    rw [hv.names]
    exact List.mem_map.mpr ⟨r, hr, by rw [hname]⟩
  have hinner := List.findSome?_eq_none_iff.mp hnone _ hbyName
  rw [if_neg (by simp)] at hinner
  have hpr : r ∈ vars.get r.1 := List.mem_filter.mpr ⟨hv.fwd ▸ hr, by simp⟩
  have hfound := List.findSome?_eq_none_iff.mp hinner _ hpr
  simp [hname] at hfound

/-- A walk finds the first record of the name in its order, if there is one. -/
theorem locateSimple_eq (hv : vars.Holds records) {range : List (Locus File × LLVMValue)}
    {P : Locus File → Prop} {R : Locus File → Locus File → Prop} (hR : ∀ l, R l l)
    (hmem : ∀ e, e ∈ range ↔ e ∈ vars.bwdLocs ∧ P e.1)
    (hrange : range.Pairwise fun e e' => R e.1 e'.1) :
    (∃ r ∈ records, (r.2.name = name ∧ f r.1 = true ∧ P r.2.locus) ∧
        (∀ r' ∈ records, r'.2.name = name → f r'.1 = true → P r'.2.locus →
          R r.2.locus r'.2.locus) ∧
        vars.locateSimple name range f = .ofInfo r.1 r.2) ∨
      ((∀ r ∈ records, r.2.name = name → f r.1 = true → ¬ P r.2.locus) ∧
        vars.locateSimple name range f = .invalid) := by
  have hin : ∀ r ∈ records, P r.2.locus → (r.2.locus, r.1) ∈ range := fun r hr hP =>
    (hmem _).mpr ⟨(hv.mem_locs _).mpr ⟨r, hr, rfl⟩, hP⟩
  cases hfind : range.findSome? (vars.entry name f) with
  | none =>
      refine Or.inr ⟨fun r hr hname hf hP => ?_, by simp only [locateSimple, hfind]; rfl⟩
      exact entry_isSome hv hr hname hf (List.findSome?_eq_none_iff.mp hfind _ (hin r hr hP))
  | some d =>
      obtain ⟨before, e, after, hsplit, hentry, hbefore⟩ := List.findSome?_eq_some_iff.mp hfind
      obtain ⟨hf, r, hr, hname, rfl, rfl⟩ := entry_eq_some hv hentry
      have hfound : (r.2.locus, r.1) ∈ range := by simp [hsplit]
      have hP : P r.2.locus := ((hmem _).mp hfound).2
      refine Or.inl ⟨r, hr, ⟨hname, hf, hP⟩, fun r' hr' hname' hf' hP' => ?_,
        by simp only [locateSimple, hfind]; rfl⟩
      -- the entry of the other record is not before the one that was found
      have hr'' := hin r' hr' hP'
      rw [hsplit] at hr'' hrange
      rcases List.mem_append.mp hr'' with hmem' | hmem'
      · exact absurd (hbefore _ hmem') (entry_isSome hv hr' hname' hf')
      · rcases List.mem_cons.mp hmem' with heq | hmem'
        · rw [show r'.2.locus = r.2.locus from congrArg Prod.fst heq]
          exact hR _
        · exact (List.pairwise_cons.mp (List.pairwise_append.mp hrange).2.1).1 _ hmem'

end Walk

theorem mem_takeWhile_lt {l : List (Locus File × LLVMValue)} {loc : Locus File}
    (hl : l.Pairwise fun e e' => e.1 ≤ e'.1) (e : Locus File × LLVMValue) :
    e ∈ l.takeWhile (fun e => e.1 < loc) ↔ e ∈ l ∧ e.1 < loc := by
  induction l with
  | nil => simp
  | cons x l ih =>
      obtain ⟨hx, hl⟩ := List.pairwise_cons.mp hl
      by_cases hlt : x.1 < loc
      · simp only [List.takeWhile_cons, hlt, decide_true, if_true, List.mem_cons, ih hl]
        constructor
        · rintro (rfl | ⟨he, he'⟩)
          · exact ⟨Or.inl rfl, hlt⟩
          · exact ⟨Or.inr he, he'⟩
        · rintro ⟨rfl | he, he'⟩
          · exact Or.inl rfl
          · exact Or.inr ⟨he, he'⟩
      · simp only [List.takeWhile_cons, hlt, decide_false, Bool.false_eq_true, if_false,
          List.not_mem_nil, false_iff, not_and, List.mem_cons]
        rintro (rfl | he) hlt'
        · exact hlt hlt'
        · exact hlt ((hx e he).trans_lt hlt')

section Ranges

variable {vars : VarInfoContainer File CType} {records : List (LLVMValue × VarInfo File CType)}

/-- The walk backwards from a position finds the last record of the name before it. -/
theorem locateSimple_reverse (hv : vars.Holds records) (name : String) (f : LLVMValue → Bool)
    (loc : Locus File) :
    (∃ r ∈ records, (r.2.name = name ∧ f r.1 = true ∧ r.2.locus < loc) ∧
        (∀ r' ∈ records, r'.2.name = name → f r'.1 = true → r'.2.locus < loc →
          r'.2.locus ≤ r.2.locus) ∧
        vars.locateSimple name (vars.byLocReverse loc) f = .ofInfo r.1 r.2) ∨
      ((∀ r ∈ records, r.2.name = name → f r.1 = true → ¬ r.2.locus < loc) ∧
        vars.locateSimple name (vars.byLocReverse loc) f = .invalid) := by
  refine locateSimple_eq hv (P := (· < loc)) (R := fun l l' => l' ≤ l) (fun _ => le_rfl)
    (fun e => ?_) ?_
  · rw [byLocReverse, List.mem_reverse, mem_takeWhile_lt hv.sorted]
  · rw [byLocReverse, List.pairwise_reverse]
    exact hv.sorted.sublist (List.takeWhile_sublist _)

/-- The walk through all positions finds the first record of the name. -/
theorem locateSimple_all (hv : vars.Holds records) (name : String) (f : LLVMValue → Bool) :
    (∃ r ∈ records, (r.2.name = name ∧ f r.1 = true ∧ True) ∧
        (∀ r' ∈ records, r'.2.name = name → f r'.1 = true → True →
          r.2.locus ≤ r'.2.locus) ∧
        vars.locateSimple name vars.bwdLocs f = .ofInfo r.1 r.2) ∨
      ((∀ r ∈ records, r.2.name = name → f r.1 = true → ¬ True) ∧
        vars.locateSimple name vars.bwdLocs f = .invalid) :=
  locateSimple_eq hv (P := fun _ => True) (R := (· ≤ ·)) (fun _ => le_rfl) (by simp) hv.sorted

end Ranges

end VarInfoContainer

/-! ## C scoping -/

/-- Where a declaration stands: outside of all functions, or in a block that ends somewhere. -/
inductive DeclScope where
  | file
  | block (stop : LocalLocus)

/-- A declaration of a source file, as it is recorded. -/
structure Declaration (File CType : Type) where
  value : LLVMValue
  info : VarInfo File CType
  scope : DeclScope

namespace Declaration

/-- The record of the declaration. -/
def record (d : Declaration File CType) : LLVMValue × VarInfo File CType := (d.value, d.info)

/-- The descriptor of the declared variable. -/
def descriptor (d : Declaration File CType) : ValueDescriptor CType := .ofInfo d.value d.info

/-- The declaration is in a block, before the position, and the block has not ended there. -/
def InBlock (d : Declaration File CType) (loc : Locus File) : Prop :=
  match d.scope with
  | .file => False
  | .block stop =>
    (ofLex d.info.locus).1 = (ofLex loc).1 ∧ d.info.locus < loc ∧ (ofLex loc).2 ≤ stop

theorem InBlock.lt {d : Declaration File CType} {loc : Locus File} (hd : d.InBlock loc) :
    d.info.locus < loc := by
  unfold InBlock at hd
  split at hd
  · exact hd.elim
  · exact hd.2.1

end Declaration

/-- The declarations of a program.  A name is not declared twice at one position. -/
structure SourceFiles (File CType : Type) where
  decls : List (Declaration File CType)
  distinct : ∀ d ∈ decls, ∀ e ∈ decls, d.info.name = e.info.name → d.info.locus = e.info.locus →
    d = e

namespace SourceFiles

variable (S : SourceFiles File CType) (name : String) (loc : Locus File)

/-- The container after all declarations were recorded. -/
def vars : VarInfoContainer File CType :=
  .ofRecords (S.decls.map Declaration.record)

/-- `d` declares a variable of the name. -/
def Declares (d : Declaration File CType) : Prop :=
  d ∈ S.decls ∧ d.info.name = name ∧ d.value.cls ≠ .function

/-- A local variable of the name that is in scope. -/
def LocalInScope (d : Declaration File CType) : Prop :=
  S.Declares name d ∧ d.InBlock loc

/-- A global variable of the name. -/
def DeclaresGlobal (d : Declaration File CType) : Prop :=
  S.Declares name d ∧ d.scope = .file

/-- A global of the name stands for it in all files, but in a file with one of its own that one
does. -/
def GlobalInScope (d : Declaration File CType) : Prop :=
  S.DeclaresGlobal name d ∧ ((ofLex d.info.locus).1 = (ofLex loc).1 ∨
    ∀ e, S.DeclaresGlobal name e → (ofLex e.info.locus).1 ≠ (ofLex loc).1)

/-- C binds the name at the position to the declaration: to the local variable in scope that was
declared last, because the blocks around a position are nested, or to a global one if there is
none. -/
def Binds (d : Declaration File CType) : Prop :=
  (S.LocalInScope name loc d ∧
      ∀ e, S.LocalInScope name loc e → e.info.locus ≤ d.info.locus) ∨
    ((∀ e, ¬ S.LocalInScope name loc e) ∧ S.GlobalInScope name loc d)

/-- The name is resolved at the position as C does. -/
def Resolves (v : ValueDescriptor CType) : Prop :=
  (∃ d, S.Binds name loc d ∧ v = d.descriptor) ∨ ((∀ d, ¬ S.Binds name loc d) ∧ v = .invalid)

/-! ## What the tracker looks at -/

/-- A variable of the name that was declared before the position, in any file and block. -/
def Before (d : Declaration File CType) : Prop :=
  S.Declares name d ∧ d.info.locus < loc

/-- A variable of the name whose value is an `llvm::GlobalVariable`. -/
def InGlobalVariable (d : Declaration File CType) : Prop :=
  (d ∈ S.decls ∧ d.info.name = name) ∧ d.value.cls = .globalVariable

/-- The last declaration of the name before the position, or the first global variable of the
name. -/
def Nearest (d : Declaration File CType) : Prop :=
  (S.Before name loc d ∧ ∀ e, S.Before name loc e → e.info.locus ≤ d.info.locus) ∨
    ((∀ e, ¬ S.Before name loc e) ∧ S.InGlobalVariable name d ∧
      ∀ e, S.InGlobalVariable name e → d.info.locus ≤ e.info.locus)

/-- The declaration is in scope: its block has not ended, or it is a global that no local variable
hides. -/
def Visible (d : Declaration File CType) : Prop :=
  match d.scope with
  | .block _ => d.InBlock loc
  | .file => (∀ e, ¬ S.LocalInScope name loc e) ∧ S.GlobalInScope name loc d

variable {S name loc}

omit [LinearOrder File] in
theorem InGlobalVariable.declares {d : Declaration File CType} (hd : S.InGlobalVariable name d) :
    S.Declares name d :=
  ⟨hd.1.1, hd.1.2, by simp [hd.2]⟩

theorem Nearest.declares {d : Declaration File CType} (hd : S.Nearest name loc d) :
    S.Declares name d := by
  rcases hd with ⟨hd, -⟩ | ⟨-, hd, -⟩
  · exact hd.1
  · exact hd.declares

theorem Nearest.unique {d e : Declaration File CType} (hd : S.Nearest name loc d)
    (he : S.Nearest name loc e) : d = e := by
  have hde := hd.declares
  have hee := he.declares
  refine S.distinct d hde.1 e hee.1 (hde.2.1.trans hee.2.1.symm) ?_
  rcases hd with ⟨hd, hmax⟩ | ⟨hnone, hd, hmin⟩
  · rcases he with ⟨he, hmax'⟩ | ⟨hnone', -⟩
    · exact le_antisymm (hmax' d hd) (hmax e he)
    · exact absurd hd (hnone' d)
  · rcases he with ⟨he, -⟩ | ⟨-, he, hmin'⟩
    · exact absurd he (hnone e)
    · exact le_antisymm (hmin e he) (hmin' d hd)

/-- The nearest declaration is the one C binds if it is in scope: every local variable in scope was
declared before the position, and so none of them later than it. -/
theorem Nearest.binds_iff {d : Declaration File CType} (hd : S.Nearest name loc d) :
    S.Binds name loc d ↔ S.Visible name loc d := by
  have hdeclares := hd.declares
  have hbefore : ∀ e, S.LocalInScope name loc e → S.Before name loc e := fun e he =>
    ⟨he.1, Declaration.InBlock.lt he.2⟩
  unfold Visible
  cases hscope : d.scope with
  | block stop =>
      constructor
      · rintro (⟨hlocal, -⟩ | ⟨-, hglobal⟩)
        · exact hlocal.2
        · have hfile := hglobal.1.2
          simp [hscope] at hfile
      · intro hblock
        rcases hd with ⟨-, hmax⟩ | ⟨hnone, -⟩
        · exact Or.inl ⟨⟨hdeclares, hblock⟩, fun e he => hmax e (hbefore e he)⟩
        · exact absurd ⟨hdeclares, Declaration.InBlock.lt hblock⟩ (hnone d)
  | file =>
      constructor
      · rintro (⟨hlocal, -⟩ | hglobal)
        · exact absurd hlocal.2 (by simp [Declaration.InBlock, hscope])
        · exact hglobal
      · exact Or.inr

/-- `locate` returns the nearest declaration. -/
theorem locate_eq (S : SourceFiles File CType) (name : String) (loc : Locus File) :
    ∃ v, S.vars.locate name loc .previousVal = some v ∧
      ((∃ d, S.Nearest name loc d ∧ v = d.descriptor) ∨
        ((∀ d, ¬ S.Nearest name loc d) ∧ v = .invalid)) := by
  have hv : S.vars.Holds (S.decls.map Declaration.record) := VarInfoContainer.holds_ofRecords _
  have hrecord : ∀ d ∈ S.decls, d.record ∈ S.decls.map Declaration.record := fun d hd =>
    List.mem_map_of_mem hd
  have hnotFunc : ∀ v : LLVMValue, VarInfoContainer.isNotFunc v = true ↔ v.cls ≠ .function := by
    simp [VarInfoContainer.isNotFunc, VarInfoContainer.isFunc]
  have hglobal : ∀ v : LLVMValue, VarInfoContainer.isGlobal v = true ↔ v.cls = .globalVariable := by
    simp [VarInfoContainer.isGlobal]
  have hlocate : S.vars.locate name loc .previousVal = some
      (if (S.vars.locateSimple name (S.vars.byLocReverse loc)
          VarInfoContainer.isNotFunc).isInvalid = true then
        S.vars.locateSimple name S.vars.bwdLocs VarInfoContainer.isGlobal
      else S.vars.locateSimple name (S.vars.byLocReverse loc) VarInfoContainer.isNotFunc) := rfl
  refine ⟨_, hlocate, ?_⟩
  rcases VarInfoContainer.locateSimple_reverse hv name VarInfoContainer.isNotFunc loc with
    ⟨r, hr, ⟨hname, hfun, hlt⟩, hmax, heq⟩ | ⟨hnone, heq⟩
  · -- a declaration before the position
    obtain ⟨d, hd, rfl⟩ := List.mem_map.mp hr
    have hbefore : S.Before name loc d := ⟨⟨hd, hname, (hnotFunc _).mp hfun⟩, hlt⟩
    rw [heq]
    refine Or.inl ⟨d, Or.inl ⟨hbefore, fun e he => ?_⟩, rfl⟩
    exact hmax _ (hrecord e he.1.1) he.1.2.1 ((hnotFunc _).mpr he.1.2.2) he.2
  · have hbefore : ∀ d, ¬ S.Before name loc d := fun d hd =>
      hnone _ (hrecord d hd.1.1) hd.1.2.1 ((hnotFunc _).mpr hd.1.2.2) hd.2
    rw [heq, if_pos ValueDescriptor.isInvalid_invalid]
    rcases VarInfoContainer.locateSimple_all hv name VarInfoContainer.isGlobal with
      ⟨r, hr, ⟨hname, hcls, -⟩, hmin, heq'⟩ | ⟨hnone', heq'⟩
    · -- the fallback to a global variable
      obtain ⟨d, hd, rfl⟩ := List.mem_map.mp hr
      rw [heq']
      refine Or.inl ⟨d, Or.inr ⟨hbefore, ⟨⟨hd, hname⟩, (hglobal _).mp hcls⟩, fun e he => ?_⟩, rfl⟩
      exact hmin _ (hrecord e he.1.1) he.1.2 ((hglobal _).mpr he.2) trivial
    · rw [heq']
      refine Or.inr ⟨fun d hd => ?_, rfl⟩
      rcases hd with ⟨hd, -⟩ | ⟨-, hd, -⟩
      · exact hbefore d hd
      · exact hnone' _ (hrecord d hd.1.1) hd.1.2 ((hglobal _).mpr hd.2) trivial

end SourceFiles

omit [LinearOrder File] in
theorem Declaration.descriptor_ne_invalid (d : Declaration File CType) :
    d.descriptor ≠ .invalid := by
  simp [Declaration.descriptor, ValueDescriptor.ofInfo, ValueDescriptor.invalid]

/-- **Names in annotations resolve by C scoping** if and only if the declaration of the name that
is nearest to the position is in scope there, or is recorded like the one that is; where there is
no such declaration, if none is in scope. -/
theorem locate_resolves_iff (S : SourceFiles File CType) (name : String) (loc : Locus File) :
    (∃ v, S.vars.locate name loc .previousVal = some v ∧ S.Resolves name loc v) ↔
      (∃ d, S.Nearest name loc d ∧ (S.Visible name loc d ∨
        ∃ e, S.Binds name loc e ∧ e.descriptor = d.descriptor)) ∨
      ((∀ d, ¬ S.Nearest name loc d) ∧ ∀ d, ¬ S.Binds name loc d) := by
  obtain ⟨v, hlocate, hv⟩ := S.locate_eq name loc
  rw [hlocate]
  constructor
  · rintro ⟨_, ⟨rfl⟩, hresolves⟩
    rcases hv with ⟨d, hd, rfl⟩ | ⟨hnone, rfl⟩
    · rcases hresolves with ⟨e, he, heq⟩ | ⟨-, heq⟩
      · exact Or.inl ⟨d, hd, Or.inr ⟨e, he, heq.symm⟩⟩
      · exact absurd heq d.descriptor_ne_invalid
    · rcases hresolves with ⟨e, -, heq⟩ | ⟨hbinds, -⟩
      · exact absurd heq.symm e.descriptor_ne_invalid
      · exact Or.inr ⟨hnone, hbinds⟩
  · rintro (⟨d, hd, hvisible⟩ | ⟨hnone, hbinds⟩)
    · refine ⟨v, rfl, Or.inl ?_⟩
      rcases hv with ⟨d', hd', rfl⟩ | ⟨hnone, -⟩
      · obtain rfl := hd.unique hd'
        rcases hvisible with hvisible | ⟨e, he, heq⟩
        · exact ⟨d, hd.binds_iff.mpr hvisible, rfl⟩
        · exact ⟨e, he, heq.symm⟩
      · exact absurd hd (hnone d)
    · rcases hv with ⟨d, hd, -⟩ | ⟨-, rfl⟩
      · exact absurd hd (hnone d)
      · exact ⟨_, rfl, Or.inr ⟨hbinds, rfl⟩⟩

/-- A global `x` in line 1, a function in the lines 3 to 6 with an `x` of its own, and a function
behind it. -/
def twoFunctions : SourceFiles ℕ Unit where
  decls :=
    [⟨⟨0, .globalVariable⟩, ⟨"x", toLex (0, toLex (1, 0)), .memory, ()⟩, .file⟩,
      ⟨⟨1, .other⟩, ⟨"x", toLex (0, toLex (4, 5)), .memory, ()⟩, .block (toLex (6, 1))⟩]
  distinct := by
    intro d hd e he _ heq
    simp only [List.mem_cons, List.not_mem_nil, or_false] at hd he
    rcases hd with rfl | rfl <;> rcases he with rfl | rfl <;> simp_all

/-- In the second function the name is resolved to the local variable of the first one. -/
theorem locate_not_resolves :
    ¬ ∀ (S : SourceFiles ℕ Unit) (name : String) (loc : Locus ℕ),
      ∃ v, S.vars.locate name loc .previousVal = some v ∧ S.Resolves name loc v := by
  intro hclaim
  obtain ⟨v, hlocate, hresolves⟩ := hclaim twoFunctions "x" (toLex (0, toLex (9, 1)))
  have hvalue : twoFunctions.vars.locate "x" (toLex (0, toLex (9, 1))) .previousVal =
      some ⟨some ⟨1, .other⟩, some (), true⟩ := by decide
  rw [hvalue] at hlocate
  obtain rfl := Option.some.inj hlocate
  rcases hresolves with ⟨d, hbinds, heq⟩ | ⟨-, heq⟩
  · have hmem : d ∈ twoFunctions.decls := by
      rcases hbinds with ⟨hlocal, -⟩ | ⟨-, hglobal⟩
      · exact hlocal.1.1
      · exact hglobal.1.1.1
    simp only [twoFunctions, List.mem_cons, List.not_mem_nil, or_false] at hmem
    rcases hmem with rfl | rfl
    · simp [Declaration.descriptor, ValueDescriptor.ofInfo] at heq
    · rcases hbinds with ⟨hlocal, -⟩ | ⟨-, hglobal⟩
      · -- the block of the local variable ends in line 6
        have hstop : (toLex (9, 1) : LocalLocus) ≤ toLex (6, 1) := hlocal.2.2.2
        revert hstop
        decide
      · exact absurd hglobal.1.2 (by simp)
  · cases heq

end Borealis