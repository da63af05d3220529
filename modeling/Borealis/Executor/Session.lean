import Borealis.Executor.Layout
import Borealis.Lib.Run

/-!
# Sessions of the memory simulator

A session is a memory simulator together with the history its clients could keep: the blocks
handed out, the live ones among them and the byte last stored at each address since its block was
handed out.  `Session.perform` runs an operation of the simulator and updates the history as the
operation's result says.
-/

namespace Borealis

/-- A block returned by `AllocateMemory` or `MallocMemory`: `amount` bytes were asked for,
`real` bytes at `base` were set aside, and `state` is the state they start in. -/
structure Allocation where
  base : ℕ
  real : ℕ
  amount : ℕ
  status : MemoryStatus
  state : MemoryState
deriving DecidableEq

/-- The bytes set aside for an allocation. -/
def Allocation.Covers (A : Allocation) (a : ℕ) : Prop :=
  A.base ≤ a ∧ a < A.base + A.real

/-- The bytes that were asked for. -/
def Allocation.Contains (A : Allocation) (a : ℕ) : Prop :=
  A.base ≤ a ∧ a < A.base + A.amount

instance (A : Allocation) (a : ℕ) : Decidable (A.Covers a) :=
  inferInstanceAs (Decidable (_ ∧ _))

instance (A : Allocation) (a : ℕ) : Decidable (A.Contains a) :=
  inferInstanceAs (Decidable (_ ∧ _))

/-- A memory simulator and its history. -/
structure Session where
  sim : MemorySimulator
  issued : List Allocation := []
  live : List Allocation := []
  written : ℕ → Option UInt8 := fun _ => none

/-- The operations on the simulated memory. -/
inductive Op where
  | allocateMemory (amount : ℕ)
  | mallocMemory (amount : ℕ) (fillWith : MallocFill)
  | store (addr : ℕ) (data : List UInt8)
  | deallocateMemory (addr : ℕ)
  | freeMemory (addr : ℕ)
  | memset (addr : ℕ) (fill : UInt8) (size : ℕ)

namespace Session

/-- The session at the start of a program. -/
def init (L : Layout) : Session :=
  { sim := MemorySimulator.init L.chunkSize L.power }

/-- The size of the block set aside for `amount` bytes, where there is one. -/
def realAmount (s : Session) (amount : ℕ) : ℕ :=
  match calcRealMemoryAmount amount s.sim.tree.chunkSize with
  | .ok real => real
  | .error _ => 0

/-- The history after a block was handed out. -/
def issue (s : Session) (A : Allocation) : Session :=
  { s with
    issued := A :: s.issued
    live := A :: s.live
    written := fun a => if A.Covers a then none else s.written a }

/-- The history after the block of the given status at `addr` was released. -/
def released (s : Session) (addr : ℕ) (status : MemoryStatus) : Session :=
  { s with live := s.live.filter fun A => ¬ (A.base = addr ∧ A.status = status) }

/-- The history after `data` was stored at `addr`. -/
def stored (s : Session) (addr : ℕ) (data : List UInt8) : Session :=
  { s with
    written := fun a =>
      if addr ≤ a ∧ a < addr + data.length then data[a - addr]? else s.written a }

/-- The session after an operation of the simulator; the history follows if it returned. -/
def settle {α : Type} (s : Session) (r : Except Fault α × MemorySimulator)
    (update : α → Session → Session) : Except Fault Unit × Session :=
  match r.1 with
  | .error e => (.error e, { s with sim := r.2 })
  | .ok v => (.ok (), update v { s with sim := r.2 })

/-- An operation, its result and the session after it. -/
def perform (s : Session) : Op → Except Fault Unit × Session
  | .allocateMemory amount =>
    s.settle (s.sim.allocateMemory amount) fun base s' =>
      s'.issue ⟨base, s.realAmount amount, amount, .alloca, .uninit⟩
  | .mallocMemory amount fillWith =>
    s.settle (s.sim.mallocMemory amount fillWith) fun base s' =>
      s'.issue ⟨base, s.realAmount amount, amount, .malloc, fillWith.memState⟩
  | .store addr data =>
    s.settle (s.sim.store addr data) fun _ s' => s'.stored addr data
  | .deallocateMemory addr =>
    s.settle (s.sim.deallocateMemory addr) fun _ s' => s'.released addr .alloca
  | .freeMemory addr =>
    s.settle (s.sim.freeMemory addr) fun _ s' => s'.released addr .malloc
  | .memset addr fill size =>
    s.settle (s.sim.memset addr fill size) fun _ s' => s'.stored addr (List.replicate size fill)

section Settle

variable {α : Type} {s : Session} {r : Except Fault α × MemorySimulator}
  {update : α → Session → Session}

theorem settle_ok {v : α} {m : MemorySimulator} :
    s.settle (.ok v, m) update = (.ok (), update v { s with sim := m }) := rfl

theorem settle_error {e : Fault} {m : MemorySimulator} :
    s.settle (.error e, m) update = (.error e, { s with sim := m }) := rfl

theorem settle_of_ok (hok : (s.settle r update).1 = .ok ()) :
    ∃ v, s.settle r update = (.ok (), update v { s with sim := r.2 }) := by
  obtain ⟨result, m⟩ := r
  cases result with
  | error e => cases hok
  | ok v => exact ⟨v, rfl⟩

theorem settle_sim (hupdate : ∀ v s', (update v s').sim = s'.sim) :
    (s.settle r update).2.sim = r.2 := by
  unfold settle
  split
  · rfl
  · rw [hupdate]

theorem settle_issued (hupdate : ∀ v s', (update v s').issued = s'.issued) :
    (s.settle r update).2.issued = s.issued := by
  unfold settle
  split
  · rfl
  · rw [hupdate]

end Settle

/-- The session after an operation the process survives. -/
def step (s : Session) (op : Op) : Option Session :=
  match s.perform op with
  | (.error e, s') => if e.isFatal then none else some s'
  | (.ok _, s') => some s'

theorem step_of_ok {s : Session} {op : Op} (h : (s.perform op).1 = .ok ()) :
    s.step op = some (s.perform op).2 := by
  unfold step
  split
  · next e s' hp => simp [hp] at h
  · next v s' hp => rw [hp]

/-- A run goes on with an operation that returns. -/
theorem reachable_perform {guard : Session → Op → Prop} {init s : Session}
    (h : Lib.Reachable step guard init s) (op : Op) (hguard : guard s op)
    (hok : (s.perform op).1 = .ok ()) : Lib.Reachable step guard init (s.perform op).2 :=
  .step h hguard (step_of_ok hok)

theorem step_eq_some {s s' : Session} {op : Op} (h : s.step op = some s') :
    s' = (s.perform op).2 := by
  unfold step at h
  split at h
  · next e s'' hp =>
      split at h
      · cases h
      · rw [hp, ← Option.some.inj h]
  · next v s'' hp => rw [hp, ← Option.some.inj h]

end Session

end Borealis
