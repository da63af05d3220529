import Borealis.Lib.Run
import Mathlib.Data.Finset.Disjoint
import Mathlib.Data.Finset.SDiff
import Mathlib.Logic.Function.Basic

/-!
# The persistent defect store

Analysers that run side by side share one file with two sets of defects, the true ones and the false
ones.  An analyser loads the file when it starts, collects its own true and false defects, and
writes what it has merged with the file, when it is asked to synchronise or to dump.  Reading and
writing happen under a lock, so that each of the two operations is one step here.

## Strategy

A write only ever adds to both sets of the file, so a true defect that was written stays
(`storedTrue_mono`).  For the same reason an analyser remembers nothing that is not stored
(`Remembers`).  What it remembers is then consistent when the file is, and whether the next file is
consistent depends on the defects it found itself only: it may not have found true what is stored as
false, nor false what is stored as true (`Agrees`).
-/

namespace Borealis.DefectManager

variable {Defect : Type} [DecidableEq Defect]

/-- `impl_::persistentDefectData`. -/
structure PersistentDefectData (Defect : Type) where
  trueData : Finset Defect
  falseData : Finset Defect
  truePastData : Finset Defect
  falsePastData : Finset Defect
  falseAbsIntData : Finset Defect

/-- `SimpleT`: the contents of the file, the true defects and the false ones. -/
abbrev SimpleT (Defect : Type) := Finset Defect × Finset Defect

/-- The constructor, with what can be read from the file. -/
def PersistentDefectData.load (file : Option (SimpleT Defect)) : PersistentDefectData Defect where
  trueData := ∅
  falseData := ∅
  truePastData := (file.map Prod.fst).getD ∅
  falsePastData := (file.map Prod.snd).getD ∅
  falseAbsIntData := ∅

/-- The body of the locked section: what is written. -/
def merge (tpd fpd : Finset Defect) : Option (SimpleT Defect) → SimpleT Defect
  | some existing => (tpd ∪ existing.1, fpd ∪ existing.2)
  | none => (tpd, fpd)

namespace PersistentDefectData

variable (data : PersistentDefectData Defect)

/-- `sync`: the fields afterwards, and what is written. -/
def sync (file : Option (SimpleT Defect)) : PersistentDefectData Defect × SimpleT Defect :=
  let tpd := data.truePastData ∪ data.trueData
  let fpd := (data.falsePastData ∪ data.falseData) \ tpd
  let written := merge tpd fpd file
  ({ data with truePastData := written.1, falsePastData := written.2 }, written)

/-- `forceDump`: the fields afterwards, and what is written. -/
def forceDump (file : Option (SimpleT Defect)) : PersistentDefectData Defect × SimpleT Defect :=
  let falseData := data.falseData \ data.trueData
  let written := merge (data.truePastData ∪ data.trueData) (data.falsePastData ∪ falseData) file
  ({ data with falseData := falseData }, written)

end PersistentDefectData

/-! ## Analysers and their file -/

/-- What an analyser does to its data. -/
inductive Op (Defect : Type) where
  | start
  | addDefect (info : Defect)
  | addNoDefect (info : Defect)
  | addNoAbsIntDefect (info : Defect)
  | sync
  | forceDump

/-- The analysers that have started, and the file. -/
structure System (Defect : Type) where
  processes : Nat → Option (PersistentDefectData Defect)
  file : Option (SimpleT Defect)

namespace System

/-- No analyser has started. -/
def init (file : Option (SimpleT Defect)) : System Defect := ⟨fun _ => none, file⟩

/-- An analyser changes its data only. -/
def update (s : System Defect) (i : Nat) (data : PersistentDefectData Defect) : System Defect :=
  { s with processes := Function.update s.processes i (some data) }

/-- An analyser changes its data and writes the file. -/
def write (s : System Defect) (i : Nat) (result : PersistentDefectData Defect × SimpleT Defect) :
    System Defect :=
  ⟨Function.update s.processes i (some result.1), some result.2⟩

/-- One step of one analyser. -/
def step (s : System Defect) (x : Nat × Op Defect) : Option (System Defect) :=
  match s.processes x.1, x.2 with
  | none, .start => some (s.update x.1 (.load s.file))
  | none, _ => none
  | some _, .start => none
  | some data, .addDefect info =>
    some (s.update x.1 { data with trueData := insert info data.trueData })
  | some data, .addNoDefect info =>
    some (s.update x.1 { data with falseData := insert info data.falseData })
  | some data, .addNoAbsIntDefect info =>
    some (s.update x.1 { data with
      falseAbsIntData := insert info data.falseAbsIntData
      falseData := insert info data.falseData })
  | some data, .sync => some (s.write x.1 (data.sync s.file))
  | some data, .forceDump => some (s.write x.1 (data.forceDump s.file))

/-- The stored true defects. -/
def storedTrue (s : System Defect) : Finset Defect := (s.file.map Prod.fst).getD ∅

/-- The stored false defects. -/
def storedFalse (s : System Defect) : Finset Defect := (s.file.map Prod.snd).getD ∅

/-- No defect is stored both as true and as false. -/
def Consistent (s : System Defect) : Prop := Disjoint s.storedTrue s.storedFalse

/-- The analyser has found true no defect that is stored as false, and found false, without finding
it true, no defect that is stored as true; when it synchronises, it also gives up a defect that it
remembers as true. -/
def Agrees (s : System Defect) (x : Nat × Op Defect) : Prop :=
  ∀ data, s.processes x.1 = some data →
    match x.2 with
    | .sync => Disjoint data.trueData s.storedFalse ∧
        Disjoint ((data.falseData \ data.trueData) \ data.truePastData) s.storedTrue
    | .forceDump => Disjoint data.trueData s.storedFalse ∧
        Disjoint (data.falseData \ data.trueData) s.storedTrue
    | _ => True

/-- What the analysers remember of the file is still stored. -/
structure Remembers (s : System Defect) : Prop where
  truePast : ∀ i data, s.processes i = some data → data.truePastData ⊆ s.storedTrue
  falsePast : ∀ i data, s.processes i = some data → data.falsePastData ⊆ s.storedFalse

/-! ## What a step does -/

theorem merge_eq (tpd fpd : Finset Defect) (file : Option (SimpleT Defect)) :
    merge tpd fpd file = (tpd ∪ (file.map Prod.fst).getD ∅, fpd ∪ (file.map Prod.snd).getD ∅) := by
  cases file with
  | none => simp [merge]
  | some existing => rfl

/-- **Every step either leaves the file alone or adds to both of its sets.**  The second case says
what is written. -/
theorem step_cases {s s' : System Defect} {x : Nat × Op Defect} (h : s.step x = some s') :
    (∃ data, s' = s.update x.1 data ∧ x.2 ≠ .sync ∧ x.2 ≠ .forceDump ∧
      (data = .load s.file ∨ ∃ old, s.processes x.1 = some old ∧
        data.truePastData = old.truePastData ∧ data.falsePastData = old.falsePastData)) ∨
    (∃ data, s.processes x.1 = some data ∧ x.2 = .sync ∧ s' = s.write x.1 (data.sync s.file)) ∨
    (∃ data, s.processes x.1 = some data ∧ x.2 = .forceDump ∧
      s' = s.write x.1 (data.forceDump s.file)) := by
  obtain ⟨i, op⟩ := x
  cases hp : s.processes i with
  | none =>
      cases op with
      | start =>
          rw [step, hp] at h
          obtain rfl := Option.some.inj h
          exact Or.inl ⟨_, rfl, by simp, by simp, Or.inl rfl⟩
      | _ => simp [step, hp] at h
  | some data =>
      cases op with
      | start => simp [step, hp] at h
      | sync =>
          simp only [step, hp, Option.some.injEq] at h
          exact Or.inr (Or.inl ⟨data, rfl, rfl, h.symm⟩)
      | forceDump =>
          simp only [step, hp, Option.some.injEq] at h
          exact Or.inr (Or.inr ⟨data, rfl, rfl, h.symm⟩)
      | addDefect info =>
          simp only [step, hp, Option.some.injEq] at h
          exact Or.inl ⟨_, h.symm, by simp, by simp, Or.inr ⟨data, rfl, rfl, rfl⟩⟩
      | addNoDefect info =>
          simp only [step, hp, Option.some.injEq] at h
          exact Or.inl ⟨_, h.symm, by simp, by simp, Or.inr ⟨data, rfl, rfl, rfl⟩⟩
      | addNoAbsIntDefect info =>
          simp only [step, hp, Option.some.injEq] at h
          exact Or.inl ⟨_, h.symm, by simp, by simp, Or.inr ⟨data, rfl, rfl, rfl⟩⟩

theorem storedTrue_sync (s : System Defect) (i : Nat) (data : PersistentDefectData Defect) :
    (s.write i (data.sync s.file)).storedTrue =
      data.truePastData ∪ data.trueData ∪ s.storedTrue := by
  simp only [write, PersistentDefectData.sync, merge_eq, storedTrue]
  rfl

theorem storedFalse_sync (s : System Defect) (i : Nat) (data : PersistentDefectData Defect) :
    (s.write i (data.sync s.file)).storedFalse =
      (data.falsePastData ∪ data.falseData) \ (data.truePastData ∪ data.trueData) ∪
        s.storedFalse := by
  simp only [write, PersistentDefectData.sync, merge_eq, storedFalse]
  rfl

theorem storedTrue_forceDump (s : System Defect) (i : Nat) (data : PersistentDefectData Defect) :
    (s.write i (data.forceDump s.file)).storedTrue =
      data.truePastData ∪ data.trueData ∪ s.storedTrue := by
  simp only [write, PersistentDefectData.forceDump, merge_eq, storedTrue]
  rfl

theorem storedFalse_forceDump (s : System Defect) (i : Nat) (data : PersistentDefectData Defect) :
    (s.write i (data.forceDump s.file)).storedFalse =
      data.falsePastData ∪ data.falseData \ data.trueData ∪ s.storedFalse := by
  simp only [write, PersistentDefectData.forceDump, merge_eq, storedFalse]
  rfl

/-- **Nothing stored is lost in a step.** -/
theorem stored_mono {s s' : System Defect} {x : Nat × Op Defect} (h : s.step x = some s') :
    s.storedTrue ⊆ s'.storedTrue ∧ s.storedFalse ⊆ s'.storedFalse := by
  rcases step_cases h with ⟨data, rfl, -⟩ | ⟨data, -, -, rfl⟩ | ⟨data, -, -, rfl⟩
  · exact ⟨Finset.Subset.refl _, Finset.Subset.refl _⟩
  · rw [storedTrue_sync, storedFalse_sync]
    exact ⟨Finset.subset_union_right, Finset.subset_union_right⟩
  · rw [storedTrue_forceDump, storedFalse_forceDump]
    exact ⟨Finset.subset_union_right, Finset.subset_union_right⟩

/-- **A true defect that is stored stays stored.** -/
theorem storedTrue_mono {s s' : System Defect}
    (h : Lib.Reachable step (fun _ _ => True) s s') : s.storedTrue ⊆ s'.storedTrue :=
  h.invariant (Finset.Subset.refl _) fun _ _ _ hsub _ hstep =>
    Finset.Subset.trans hsub (stored_mono hstep).1

omit [DecidableEq Defect] in
/-- A system that differs in one analyser only. -/
theorem Remembers.of_update {s s' : System Defect} (hs : Remembers s) {i : Nat}
    {data : PersistentDefectData Defect}
    (hprocesses : s'.processes = Function.update s.processes i (some data))
    (htrue : s.storedTrue ⊆ s'.storedTrue) (hfalse : s.storedFalse ⊆ s'.storedFalse)
    (hdata : data.truePastData ⊆ s'.storedTrue ∧ data.falsePastData ⊆ s'.storedFalse) :
    Remembers s' := by
  constructor
  · intro j data' hj
    rw [hprocesses] at hj
    rcases eq_or_ne j i with rfl | hne
    · rw [Function.update_self] at hj
      exact Option.some.inj hj ▸ hdata.1
    · rw [Function.update_of_ne hne] at hj
      exact (hs.truePast j data' hj).trans htrue
  · intro j data' hj
    rw [hprocesses] at hj
    rcases eq_or_ne j i with rfl | hne
    · rw [Function.update_self] at hj
      exact Option.some.inj hj ▸ hdata.2
    · rw [Function.update_of_ne hne] at hj
      exact (hs.falsePast j data' hj).trans hfalse

/-- What is remembered is stored, after any step. -/
theorem Remembers.step {s s' : System Defect} {x : Nat × Op Defect} (hs : Remembers s)
    (h : s.step x = some s') : Remembers s' := by
  obtain ⟨htrue, hfalse⟩ := stored_mono h
  rcases step_cases h with ⟨data, rfl, -, -, rfl | ⟨old, hold, htp, hfp⟩⟩ | ⟨data, hdata, -, rfl⟩ |
    ⟨data, hdata, -, rfl⟩
  · exact hs.of_update rfl htrue hfalse ⟨Finset.Subset.refl _, Finset.Subset.refl _⟩
  · refine hs.of_update rfl htrue hfalse ⟨?_, ?_⟩
    · rw [htp]
      exact hs.truePast x.1 old hold
    · rw [hfp]
      exact hs.falsePast x.1 old hold
  · exact hs.of_update rfl htrue hfalse ⟨Finset.Subset.refl _, Finset.Subset.refl _⟩
  · exact hs.of_update rfl htrue hfalse ⟨(hs.truePast x.1 data hdata).trans htrue,
      (hs.falsePast x.1 data hdata).trans hfalse⟩

/-! ## Consistent files -/

section Sets

variable {truePast trueData falsePast falseData storedTrue storedFalse : Finset Defect}
  (htruePast : truePast ⊆ storedTrue) (hfalsePast : falsePast ⊆ storedFalse)
  (hstored : Disjoint storedTrue storedFalse)

include htruePast hfalsePast hstored

theorem disjoint_sync_iff :
    Disjoint (truePast ∪ trueData ∪ storedTrue)
      ((falsePast ∪ falseData) \ (truePast ∪ trueData) ∪ storedFalse) ↔
    Disjoint trueData storedFalse ∧ Disjoint ((falseData \ trueData) \ truePast) storedTrue := by
  simp only [Finset.disjoint_left, Finset.mem_union, Finset.mem_sdiff] at hstored ⊢
  constructor
  · intro h
    exact ⟨fun d hd hfalse => h (Or.inl (Or.inr hd)) (Or.inr hfalse), fun d hd htrue =>
      h (Or.inr htrue) (Or.inl ⟨Or.inr hd.1.1, not_or.mpr ⟨hd.2, hd.1.2⟩⟩)⟩
  · rintro ⟨hfound, hfalseFound⟩ d hd hwritten
    rcases hwritten with ⟨hfalse, hnot⟩ | hfalse
    · -- what was found true is not written as false, so it was stored as true
      have htrue := hd.resolve_left hnot
      rcases hfalse with hfalse | hfalse
      · exact hstored htrue (hfalsePast hfalse)
      · rw [not_or] at hnot
        exact hfalseFound ⟨⟨hfalse, hnot.2⟩, hnot.1⟩ htrue
    · rcases hd with (htrue | htrue) | htrue
      · exact hstored (htruePast htrue) hfalse
      · exact hfound htrue hfalse
      · exact hstored htrue hfalse

theorem disjoint_forceDump_iff :
    Disjoint (truePast ∪ trueData ∪ storedTrue)
      (falsePast ∪ falseData \ trueData ∪ storedFalse) ↔
    Disjoint trueData storedFalse ∧ Disjoint (falseData \ trueData) storedTrue := by
  simp only [Finset.disjoint_left, Finset.mem_union, Finset.mem_sdiff] at hstored ⊢
  constructor
  · intro h
    exact ⟨fun d hd hfalse => h (Or.inl (Or.inr hd)) (Or.inr hfalse),
      fun d hd htrue => h (Or.inr htrue) (Or.inl (Or.inr hd))⟩
  · rintro ⟨hfound, hfalseFound⟩ d hd hwritten
    rcases hwritten with (hfalse | hfalse) | hfalse
    · rcases hd with (htrue | htrue) | htrue
      · exact hstored (htruePast htrue) (hfalsePast hfalse)
      · exact hfound htrue (hfalsePast hfalse)
      · exact hstored htrue (hfalsePast hfalse)
    · rcases hd with (htrue | htrue) | htrue
      · exact hfalseFound hfalse (htruePast htrue)
      · exact hfalse.2 htrue
      · exact hfalseFound hfalse htrue
    · rcases hd with (htrue | htrue) | htrue
      · exact hstored (htruePast htrue) hfalse
      · exact hfound htrue hfalse
      · exact hstored htrue hfalse

end Sets

/-- **A step keeps the file consistent exactly when the analyser agrees with it.** -/
theorem Consistent.step_iff {s s' : System Defect} {x : Nat × Op Defect} (hs : s.Consistent)
    (hremembers : Remembers s) (h : s.step x = some s') : s'.Consistent ↔ s.Agrees x := by
  unfold Agrees
  rcases step_cases h with ⟨data, rfl, hsync, hdump, -⟩ | ⟨data, hdata, hop, rfl⟩ |
    ⟨data, hdata, hop, rfl⟩
  · refine iff_of_true hs fun _ _ => ?_
    cases hop : x.2 with
    | sync => exact absurd hop hsync
    | forceDump => exact absurd hop hdump
    | start => trivial
    | addDefect info => trivial
    | addNoDefect info => trivial
    | addNoAbsIntDefect info => trivial
  · rw [Consistent, storedTrue_sync, storedFalse_sync, disjoint_sync_iff
      (hremembers.truePast x.1 data hdata) (hremembers.falsePast x.1 data hdata) hs]
    simp [hdata, hop]
  · rw [Consistent, storedTrue_forceDump, storedFalse_forceDump, disjoint_forceDump_iff
      (hremembers.truePast x.1 data hdata) (hremembers.falsePast x.1 data hdata) hs]
    simp [hdata, hop]

omit [DecidableEq Defect] in
theorem remembers_init (file : Option (SimpleT Defect)) : Remembers (init file) :=
  ⟨fun _ data h => absurd h.symm (Option.some_ne_none data),
    fun _ data h => absurd h.symm (Option.some_ne_none data)⟩

/-- **No true defect is lost, and the file stays consistent as long as the analysers agree with
it**, which is also necessary: the first step at which an analyser does not agree writes a defect
that is both true and false. -/
theorem no_defect_lost {file : Option (SimpleT Defect)} (hfile : (init file).Consistent) :
    (∀ s, Lib.Reachable step (fun _ _ => True) (init file) s →
      ∀ i data d, s.processes i = some data → d ∈ data.trueData →
        ∀ s', s.step (i, .forceDump) = some s' →
          ∀ s'', Lib.Reachable step (fun _ _ => True) s' s'' → d ∈ s''.storedTrue) ∧
    (∀ s, Lib.Reachable step Agrees (init file) s →
      s.Consistent ∧ ∀ x s', s.step x = some s' → (s'.Consistent ↔ s.Agrees x)) := by
  constructor
  · intro s _ i data d hdata hd s' hstep s'' hreach
    refine storedTrue_mono hreach ?_
    simp only [System.step, hdata, Option.some.injEq] at hstep
    rw [← hstep, storedTrue_forceDump]
    exact Finset.mem_union_left _ (Finset.mem_union_right _ hd)
  · intro s hreach
    obtain ⟨hconsistent, hremembers⟩ : s.Consistent ∧ Remembers s := by
      refine @Lib.Reachable.invariant _ _ _ _ _ _ (fun t => t.Consistent ∧ Remembers t) hreach
        ⟨hfile, remembers_init file⟩ ?_
      rintro t x t' ⟨hconsistent, hremembers⟩ hagrees hstep
      exact ⟨(hconsistent.step_iff hremembers hstep).mpr hagrees, hremembers.step hstep⟩
    exact ⟨hconsistent, fun x s' => hconsistent.step_iff hremembers⟩

/-- A file with a true and a false defect stays consistent when an analyser starts. -/
theorem no_defect_lost_two :
    ((init (some (({1}, {2}) : SimpleT Nat))).update 0
      (.load (some (({1}, {2}) : SimpleT Nat)))).Consistent := by
  have hfile : (init (some (({1}, {2}) : SimpleT Nat))).Consistent :=
    Finset.disjoint_singleton.mpr (by decide)
  have hagrees : (init (some (({1}, {2}) : SimpleT Nat))).Agrees (0, .start) :=
    fun data h => absurd h.symm (Option.some_ne_none data)
  exact ((no_defect_lost hfile).2 _ (.step .init hagrees rfl)).1

/-- Two analysers, one of which finds true what the other finds false. -/
def disagreement : List (Nat × Op Nat) :=
  [(0, .start), (1, .start), (0, .addDefect 7), (1, .addNoDefect 7), (0, .forceDump),
    (1, .forceDump)]

/-- **Two analysers that disagree leave a defect in the file that is both true and false.** -/
theorem disagreement_is_stored :
    ∃ s, Lib.Reachable step (fun _ _ => True) (init (none : Option (SimpleT Nat))) s ∧
      disagreement.foldlM step (init none) = some s ∧ 7 ∈ s.storedTrue ∧ 7 ∈ s.storedFalse := by
  have hreach : ∀ (l : List (Nat × Op Nat)) (s s' : System Nat),
      Lib.Reachable step (fun _ _ => True) (init none) s → l.foldlM step s = some s' →
      Lib.Reachable step (fun _ _ => True) (init none) s' := by
    intro l
    induction l with
    | nil =>
        intro s s' hs h
        exact Option.some.inj h ▸ hs
    | cons x l ih =>
        intro s s' hs h
        rw [List.foldlM_cons] at h
        obtain ⟨t, ht, h⟩ := Option.bind_eq_some_iff.mp h
        exact ih t s' (hs.step trivial ht) h
  refine ⟨_, hreach disagreement (init none) _ .init rfl, rfl, ?_, ?_⟩
  · decide
  · decide

end System

end Borealis.DefectManager
