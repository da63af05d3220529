import Mathlib.Data.List.Induction
import Mathlib.Data.List.Sort
import Mathlib.Data.Prod.Lex

/-!
# The two indices of source locations

`location_container` keeps a multimap from locations to values and a map from values to locations.
A value that is put again should leave its old place in the multimap.  `put` looks for it under the
new location instead, so the old pair stays: the multimap holds every pair that was ever put
(`mem_l2t_iff`), each once.

The two indices therefore agree exactly after the runs that never put a value at two locations
(`locations_agree_iff`).  There the multimap is sorted, so `range_after` reads off the values at the next
location.
-/

namespace Borealis

namespace LocationContainer

/-- `Locus`: the number of the file name among the indexed strings, the line and the column,
compared in this order. -/
abbrev Locus := Nat ×ₗ Nat ×ₗ Nat

/-- `location_container<T>`.  The multimap is the list of its pairs in order. -/
structure Container (T : Type) where
  l2t : List (Locus × T)
  t2l : T → Option Locus

variable {T : Type} [DecidableEq T]

/-- `removeFromMultimap`: the first pair in the range of the key that has the value. -/
def removeFromMultimap (m : List (Locus × T)) (k : Locus) (v : T) : List (Locus × T) :=
  m.erase (k, v)

/-- `multimap::insert`: behind all pairs of the same key. -/
def insert (m : List (Locus × T)) (e : Locus × T) : List (Locus × T) :=
  m.orderedInsert (fun a b => a.1 < b.1) e

/-- `put`. -/
def put (c : Container T) (loc : Locus) (val : T) : Container T :=
  let l2t := if (c.t2l val).isSome then removeFromMultimap c.l2t loc val else c.l2t
  { l2t := insert l2t (loc, val)
    t2l := fun v => if v = val then some loc else c.t2l v }

/-- `contains(const Locus&)`. -/
def containsLocus (c : Container T) (loc : Locus) : Bool := c.l2t.any fun e => e.1 = loc

/-- `contains(const T&)`. -/
def containsValue (c : Container T) (val : T) : Bool := (c.t2l val).isSome

/-- `operator[]`; `at` throws on a value that is not there. -/
def getLocus (c : Container T) (key : T) : Option Locus := c.t2l key

/-- `range_after`: from the upper bound of the location as long as the key stays the same. -/
def range_after (c : Container T) (loc : Locus) : List (Locus × T) :=
  match c.l2t.dropWhile fun e => e.1 ≤ loc with
  | [] => []
  | start :: rest => start :: rest.takeWhile fun e => e.1 = start.1

/-- A sequence of `put` calls on an empty container. -/
def run (puts : List (Locus × T)) : Container T :=
  puts.foldl (fun c p => put c p.1 p.2) { l2t := [], t2l := fun _ => none }

/-- Where a value was put last. -/
def lastPut (puts : List (Locus × T)) (v : T) : Option Locus :=
  (puts.reverse.find? fun p => p.2 = v).map Prod.fst

/-- The two indices agree: the multimap is the converse of the map, which has the last location of
each value, and everything that is read from either is about these locations. -/
structure Agrees (c : Container T) (puts : List (Locus × T)) : Prop where
  pairs : ∀ loc v, (loc, v) ∈ c.l2t ↔ c.t2l v = some loc
  once : (c.l2t.map Prod.snd).Nodup
  getLocus : ∀ v, getLocus c v = lastPut puts v
  containsValue : ∀ v, containsValue c v = true ↔ ∃ loc, lastPut puts v = some loc
  containsLocus : ∀ loc, containsLocus c loc = true ↔ ∃ v, lastPut puts v = some loc
  range_after : ∀ loc v, v ∈ (range_after c loc).map Prod.snd ↔
    ∃ m, lastPut puts v = some m ∧ loc < m ∧
      ∀ w m', lastPut puts w = some m' → loc < m' → m ≤ m'

/-! ## Sorted multimaps -/

section Multimap

omit [DecidableEq T]

variable {m : List (Locus × T)} {e : Locus × T}

/-- The pairs of a multimap stand in the order of their keys. -/
def Ascending (m : List (Locus × T)) : Prop := m.Pairwise fun a b => a.1 ≤ b.1

theorem mem_insert {a : Locus × T} : a ∈ insert m e ↔ a = e ∨ a ∈ m :=
  List.mem_orderedInsert _

theorem Ascending.insert (h : Ascending m) (e : Locus × T) :
    Ascending (LocationContainer.insert m e) := by
  induction m with
  | nil => exact List.pairwise_singleton _ _
  | cons b m ih =>
      obtain ⟨hb, hm⟩ := List.pairwise_cons.mp h
      rw [LocationContainer.insert, List.orderedInsert_cons]
      split
      case isTrue hlt =>
        refine List.pairwise_cons.mpr ⟨fun a ha => ?_, h⟩
        rcases List.mem_cons.mp ha with rfl | ha
        · exact le_of_lt hlt
        · exact (le_of_lt hlt).trans (hb a ha)
      case isFalse hge =>
        refine List.pairwise_cons.mpr ⟨fun a ha => ?_, ih hm⟩
        rcases mem_insert.mp ha with rfl | ha
        · exact not_lt.mp hge
        · exact hb a ha

/-- The pairs of the smallest key are the first ones. -/
theorem mem_takeWhile_iff (h : Ascending m) {k : Locus} (hk : ∀ a ∈ m, k ≤ a.1) :
    e ∈ m.takeWhile (fun a => a.1 = k) ↔ e ∈ m ∧ e.1 = k := by
  induction m with
  | nil => simp
  | cons b m ih =>
      obtain ⟨hb, hm⟩ := List.pairwise_cons.mp h
      rcases eq_or_ne b.1 k with heq | hne
      · rw [List.takeWhile_cons_of_pos (by simpa using heq), List.mem_cons, List.mem_cons,
          ih hm fun a ha => hk a (List.mem_cons_of_mem b ha)]
        constructor
        · rintro (rfl | ⟨he, hkey⟩)
          exacts [⟨Or.inl rfl, heq⟩, ⟨Or.inr he, hkey⟩]
        · rintro ⟨rfl | he, hkey⟩
          exacts [Or.inl rfl, Or.inr ⟨he, hkey⟩]
      · rw [List.takeWhile_cons_of_neg (by simpa using hne)]
        refine ⟨fun he => absurd he List.not_mem_nil, fun ⟨he, hkey⟩ => ?_⟩
        have hlt : k < b.1 := lt_of_le_of_ne (hk b List.mem_cons_self) hne.symm
        rcases List.mem_cons.mp he with rfl | he
        · exact absurd hkey hne
        · exact absurd (hkey ▸ hb e he) (not_le.mpr hlt)

/-- **What stands behind a location is what has the smallest key above it.** -/
theorem mem_range_after {c : Container T} (h : Ascending c.l2t) {loc : Locus} {e : Locus × T} :
    e ∈ range_after c loc ↔
      e ∈ c.l2t ∧ loc < e.1 ∧ ∀ e' ∈ c.l2t, loc < e'.1 → e.1 ≤ e'.1 := by
  obtain ⟨l2t, t2l⟩ := c
  simp only at h
  induction l2t with
  | nil => simp [range_after]
  | cons b m ih =>
      obtain ⟨hb, hm⟩ := List.pairwise_cons.mp h
      rcases le_or_gt b.1 loc with hle | hgt
      · -- the first pair is not above the bound: neither side sees it
        have hskip : range_after ⟨b :: m, t2l⟩ loc = range_after ⟨m, t2l⟩ loc := by
          simp [range_after, hle]
        rw [hskip, ih hm]
        constructor
        · rintro ⟨he, hloc, hmin⟩
          refine ⟨List.mem_cons_of_mem b he, hloc, fun e' he' hloc' => ?_⟩
          rcases List.mem_cons.mp he' with rfl | he'
          · exact absurd hloc' (not_lt.mpr hle)
          · exact hmin e' he' hloc'
        · rintro ⟨he, hloc, hmin⟩
          rcases List.mem_cons.mp he with rfl | he
          · exact absurd hloc (not_lt.mpr hle)
          · exact ⟨he, hloc, fun e' he' => hmin e' (List.mem_cons_of_mem b he')⟩
      · -- the first pair is above it, and no key is smaller than its key
        have hleast : ∀ a ∈ b :: m, b.1 ≤ a.1 := fun a ha =>
          (List.mem_cons.mp ha).elim (fun heq => heq ▸ le_refl _) (hb a)
        have hhead : range_after ⟨b :: m, t2l⟩ loc = (b :: m).takeWhile fun e => e.1 = b.1 := by
          simp [range_after, not_le.mpr hgt]
        rw [hhead, mem_takeWhile_iff h hleast]
        constructor
        · rintro ⟨he, hkey⟩
          exact ⟨he, hkey.symm ▸ hgt, fun e' he' _ => hkey.symm ▸ hleast e' he'⟩
        · rintro ⟨he, -, hmin⟩
          exact ⟨he, le_antisymm (hmin b List.mem_cons_self hgt) (hleast e he)⟩

end Multimap

/-! ## Runs -/

section Runs

variable {puts : List (Locus × T)}

theorem run_append (p : Locus × T) : run (puts ++ [p]) = put (run puts) p.1 p.2 := by
  simp [run]

theorem lastPut_append (p : Locus × T) (v : T) :
    lastPut (puts ++ [p]) v = if v = p.2 then some p.1 else lastPut puts v := by
  rcases eq_or_ne v p.2 with rfl | hne
  · simp [lastPut]
  · simp [lastPut, hne, hne.symm]

/-- The map has the last location of each value. -/
theorem t2l_run (v : T) : (run puts).t2l v = lastPut puts v := by
  induction puts using List.reverseRecOn with
  | nil => rfl
  | append_singleton puts p ih => rw [run_append, lastPut_append, ← ih]; rfl

theorem lastPut_isSome {v : T} : (lastPut puts v).isSome ↔ ∃ loc, (loc, v) ∈ puts := by
  simp [lastPut]

theorem mem_of_lastPut {loc : Locus} {v : T} (h : lastPut puts v = some loc) :
    (loc, v) ∈ puts := by
  obtain ⟨⟨loc, w⟩, hfind, rfl⟩ := Option.map_eq_some_iff.mp h
  obtain rfl : w = v := by simpa using List.find?_some hfind
  exact List.mem_reverse.mp (List.mem_of_find?_eq_some hfind)

/-- **The multimap holds every pair that was ever put, once, in the order of the locations.** -/
theorem run_l2t (puts : List (Locus × T)) :
    Ascending (run puts).l2t ∧ (run puts).l2t.Nodup ∧ ∀ e, e ∈ (run puts).l2t ↔ e ∈ puts := by
  induction puts using List.reverseRecOn with
  | nil => exact ⟨List.Pairwise.nil, List.nodup_nil, fun _ => Iff.rfl⟩
  | append_singleton puts p ih =>
      obtain ⟨hascending, hnodup, hmem⟩ := ih
      obtain ⟨loc, val⟩ := p
      rw [run_append]
      -- whatever `put` removes, it is the pair that it inserts
      have hrest : ∃ m, (put (run puts) loc val).l2t = insert m (loc, val) ∧ Ascending m ∧
          m.Nodup ∧ (loc, val) ∉ m ∧ ∀ e, e ≠ (loc, val) → (e ∈ m ↔ e ∈ puts) := by
        by_cases hcount : ((run puts).t2l val).isSome
        · refine ⟨(run puts).l2t.erase (loc, val), by simp [put, hcount, removeFromMultimap],
            hascending.sublist List.erase_sublist, hnodup.erase _, hnodup.not_mem_erase,
            fun e he => ?_⟩
          rw [List.mem_erase_of_ne he, hmem]
        · refine ⟨(run puts).l2t, by simp [put, hcount], hascending, hnodup, fun h => ?_,
            fun e _ => hmem e⟩
          rw [t2l_run] at hcount
          exact hcount (lastPut_isSome.mpr ⟨loc, (hmem _).mp h⟩)
      obtain ⟨m, hl2t, hasc, hnod, hnot, hothers⟩ := hrest
      rw [hl2t]
      refine ⟨hasc.insert _, ?_, fun e => ?_⟩
      · exact (List.perm_orderedInsert _ _ m).nodup_iff.mpr (List.nodup_cons.mpr ⟨hnot, hnod⟩)
      · rw [mem_insert, List.mem_append, List.mem_singleton]
        rcases eq_or_ne e (loc, val) with rfl | hne
        · simp
        · simp [hne, hothers e hne]

/-- **The two indices agree exactly when no value was put at two locations.** -/
theorem locations_agree_iff (puts : List (Locus × T)) :
    Agrees (run puts) puts ↔ ∀ p ∈ puts, ∀ q ∈ puts, p.2 = q.2 → p.1 = q.1 := by
  obtain ⟨hascending, hnodup, hmem⟩ := run_l2t puts
  constructor
  · intro h p hp q hq hvalue
    have hlast : ∀ e ∈ puts, (run puts).t2l e.2 = some e.1 := fun e he =>
      (h.pairs e.1 e.2).mp ((hmem e).mpr he)
    exact Option.some.inj ((hlast p hp).symm.trans (hvalue ▸ hlast q hq))
  · intro h
    -- a value with one location was put there last
    have hlast : ∀ loc v, (loc, v) ∈ puts ↔ lastPut puts v = some loc := by
      refine fun loc v => ⟨fun hput => ?_, mem_of_lastPut⟩
      obtain ⟨m, hm⟩ := Option.isSome_iff_exists.mp (lastPut_isSome.mpr ⟨loc, hput⟩)
      exact hm.trans (congrArg some (h _ (mem_of_lastPut hm) _ hput rfl))
    refine ⟨fun loc v => ?_, ?_, t2l_run, fun v => ?_, fun loc => ?_, fun loc v => ?_⟩
    · rw [hmem, hlast, t2l_run]
    · refine List.Nodup.map_on (fun e he e' he' hvalue => ?_) hnodup
      exact Prod.ext (h e ((hmem e).mp he) e' ((hmem e').mp he') hvalue) hvalue
    · rw [containsValue, t2l_run, Option.isSome_iff_exists]
    · rw [containsLocus, List.any_eq_true]
      constructor
      · rintro ⟨e, he, hkey⟩
        exact ⟨e.2, (hlast loc e.2).mp (of_decide_eq_true hkey ▸ (hmem e).mp he)⟩
      · rintro ⟨v, hv⟩
        exact ⟨(loc, v), (hmem _).mpr ((hlast loc v).mpr hv), decide_eq_true rfl⟩
    · rw [List.mem_map]
      constructor
      · rintro ⟨e, he, rfl⟩
        obtain ⟨hin, hloc, hmin⟩ := (mem_range_after hascending).mp he
        refine ⟨e.1, (hlast e.1 e.2).mp ((hmem e).mp hin), hloc, fun w m' hw hloc' => ?_⟩
        exact hmin (m', w) ((hmem _).mpr ((hlast m' w).mpr hw)) hloc'
      · rintro ⟨m, hm, hloc, hmin⟩
        refine ⟨(m, v), (mem_range_after hascending).mpr ⟨(hmem _).mpr ((hlast m v).mpr hm), hloc,
          fun e' he' hloc' => ?_⟩, rfl⟩
        exact hmin e'.2 e'.1 ((hlast e'.1 e'.2).mp ((hmem e').mp he')) hloc'

/-- A value goes from line 1 to line 2 of a file and is still found on line 1. -/
theorem not_agrees_moved :
    ¬ ∀ puts : List (Locus × Nat), Agrees (run puts) puts := by
  intro h
  have hbad : ((toLex (0, toLex (1, 0)) : Locus), 7) ∈
      (run [(toLex (0, toLex (1, 0)), 7), (toLex (0, toLex (2, 0)), 7)]).l2t :=
    ((run_l2t _).2.2 _).mpr List.mem_cons_self
  have hlast := ((h _).pairs _ _).mp hbad
  rw [t2l_run] at hlast
  exact absurd hlast (by decide)

end Runs

end LocationContainer

end Borealis
