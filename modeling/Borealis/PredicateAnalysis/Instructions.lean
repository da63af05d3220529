import Mathlib.Data.BitVec

/-!
# Integer instructions and their executions

The integer instructions that the predicate analysis visits, as the machine executes them.  A value
of type `iN` is a bit vector of that width.  An execution ends where the behaviour is undefined: at a
division by zero, an overflowing division, or a shift by the width or more.

A straight-line sequence is a list of instructions, each with the block that control came from when
its own block was entered, in static single assignment form.
-/

namespace Borealis

/-- `llvm::BinaryOperator::BinaryOps` on integers. -/
inductive BinaryOps where
  | add | sub | mul | udiv | sdiv | urem | srem | shl | lshr | ashr | and | or | xor
deriving DecidableEq, Repr

/-- `llvm::CmpInst::Predicate` on integers. -/
inductive CmpPredicate where
  | eq | ne | ugt | uge | ult | ule | sgt | sge | slt | sle
deriving DecidableEq, Repr

/-- An operand of width `w`: an argument of the function, the result of an instruction, or a
constant. -/
inductive IntOperand (w : Nat) where
  | argument (idx : Nat) (name : String)
  | instruction (name : String)
  | constant (value : BitVec w)

/-- The machine values of the variables. -/
abbrev MachineState := (w : Nat) → String → BitVec w

/-- An integer instruction with a result of width `n`, and the name of the result.  A node `phi` has
an incoming value for each predecessor of its block. -/
inductive IntInstruction : Nat → Type where
  | binary {w : Nat} (result : String) (op : BinaryOps) (op1 op2 : IntOperand w) :
      IntInstruction w
  | icmp {w : Nat} (result : String) (predicate : CmpPredicate) (op1 op2 : IntOperand w) :
      IntInstruction 1
  | trunc {m n : Nat} (result : String) (h : 0 < n ∧ n < m) (op : IntOperand m) :
      IntInstruction n
  | zext {m n : Nat} (result : String) (h : 0 < m ∧ m < n) (op : IntOperand m) :
      IntInstruction n
  | sext {m n : Nat} (result : String) (h : 0 < m ∧ m < n) (op : IntOperand m) :
      IntInstruction n
  | select {w : Nat} (result : String) (cnd : IntOperand 1) (tru fls : IntOperand w) :
      IntInstruction w
  | phi {w : Nat} (result : String) (incoming : String → IntOperand w) : IntInstruction w

namespace IntOperand

variable {w : Nat}

/-- The variable that the operand is. -/
def uses : IntOperand w → List String
  | argument _ name | instruction name => [name]
  | constant _ => []

/-- The value of an operand. -/
def value (σ : MachineState) : IntOperand w → BitVec w
  | argument _ name | instruction name => σ w name
  | constant value => value

theorem value_congr {σ σ' : MachineState} {op : IntOperand w}
    (h : ∀ name ∈ op.uses, ∀ v, σ v name = σ' v name) : op.value σ = op.value σ' := by
  cases op with
  | argument idx name => exact h name List.mem_cons_self w
  | instruction name => exact h name List.mem_cons_self w
  | constant value => rfl

end IntOperand

/-- The result of a binary operator, if it is defined. -/
def BinaryOps.value {w : Nat} : BinaryOps → BitVec w → BitVec w → Option (BitVec w)
  | add, x, y => some (x + y)
  | sub, x, y => some (x - y)
  | mul, x, y => some (x * y)
  | udiv, x, y => if y = 0 then none else some (x / y)
  | sdiv, x, y =>
    if y = 0 ∨ x = BitVec.intMin w ∧ y = BitVec.allOnes w then none else some (x.sdiv y)
  | urem, x, y => if y = 0 then none else some (x % y)
  | srem, x, y =>
    if y = 0 ∨ x = BitVec.intMin w ∧ y = BitVec.allOnes w then none else some (x.srem y)
  | shl, x, y => if y.toNat < w then some (x <<< y) else none
  | lshr, x, y => if y.toNat < w then some (x >>> y) else none
  | ashr, x, y => if y.toNat < w then some (x.sshiftRight' y) else none
  | and, x, y => some (x &&& y)
  | or, x, y => some (x ||| y)
  | xor, x, y => some (x ^^^ y)

/-- The result of a comparison. -/
def CmpPredicate.value {w : Nat} : CmpPredicate → BitVec w → BitVec w → Bool
  | eq, x, y => decide (x = y)
  | ne, x, y => decide (x ≠ y)
  | ugt, x, y => y.ult x
  | uge, x, y => y.ule x
  | ult, x, y => x.ult y
  | ule, x, y => x.ule y
  | sgt, x, y => y.slt x
  | sge, x, y => y.sle x
  | slt, x, y => x.slt y
  | sle, x, y => x.sle y

namespace IntInstruction

variable {n : Nat}

/-- The name of the result. -/
def result : IntInstruction n → String
  | binary result _ _ _ | icmp result _ _ _ | trunc result _ _ | zext result _ _
  | sext result _ _ | select result _ _ _ | phi result _ => result

/-- The variables that the instruction reads when control came from a block. -/
def uses (source : String) : IntInstruction n → List String
  | binary _ _ op1 op2 | icmp _ _ op1 op2 => op1.uses ++ op2.uses
  | trunc _ _ op | zext _ _ op | sext _ _ op => op.uses
  | select _ cnd tru fls => cnd.uses ++ (tru.uses ++ fls.uses)
  | phi _ incoming => (incoming source).uses

/-- The value of the result, if it is defined. -/
def value (source : String) (σ : MachineState) : {n : Nat} → IntInstruction n → Option (BitVec n)
  | _, binary _ op op1 op2 => op.value (op1.value σ) (op2.value σ)
  | _, icmp _ predicate op1 op2 =>
    some (BitVec.ofBool (predicate.value (op1.value σ) (op2.value σ)))
  | n, trunc _ _ op => some ((op.value σ).setWidth n)
  | n, zext _ _ op => some ((op.value σ).setWidth n)
  | n, sext _ _ op => some ((op.value σ).signExtend n)
  | _, select _ cnd tru fls => some (if cnd.value σ = 1 then tru.value σ else fls.value σ)
  | _, phi _ incoming => some ((incoming source).value σ)

/-- What an instruction computes depends on the variables it reads. -/
theorem value_congr {source : String} {σ σ' : MachineState} {i : IntInstruction n}
    (h : ∀ name ∈ i.uses source, ∀ w, σ w name = σ' w name) :
    i.value source σ = i.value source σ' := by
  cases i with
  | binary result op op1 op2 | icmp result predicate op1 op2 =>
      have h₁ := IntOperand.value_congr fun name hn => h name (List.mem_append_left _ hn)
      have h₂ := IntOperand.value_congr fun name hn => h name (List.mem_append_right _ hn)
      rw [value, value, h₁, h₂]
  | trunc result hlt op | zext result hlt op | sext result hlt op =>
      rw [value, value, IntOperand.value_congr h]
  | select result cnd tru fls =>
      have hcnd := IntOperand.value_congr fun name hn => h name (List.mem_append_left _ hn)
      have htru := IntOperand.value_congr fun name hn =>
        h name (List.mem_append_right _ (List.mem_append_left _ hn))
      have hfls := IntOperand.value_congr fun name hn =>
        h name (List.mem_append_right _ (List.mem_append_right _ hn))
      rw [value, value, hcnd, htru, hfls]
  | phi result incoming => rw [value, value, IntOperand.value_congr h]

end IntInstruction

/-- A variable gets a value. -/
def MachineState.set (σ : MachineState) (w : Nat) (name : String) (value : BitVec w) :
    MachineState := fun w' name' =>
  if h : w = w' ∧ name = name' then h.1 ▸ value else σ w' name'

@[simp] theorem MachineState.set_self (σ : MachineState) (w : Nat) (name : String)
    (value : BitVec w) : σ.set w name value w name = value := by
  rw [MachineState.set, dif_pos ⟨rfl, rfl⟩]

theorem MachineState.set_of_ne (σ : MachineState) {w : Nat} {name name' : String}
    (value : BitVec w) (h : name ≠ name') (w' : Nat) : σ.set w name value w' name' = σ w' name' := by
  rw [MachineState.set, dif_neg fun heq => h heq.2]

/-! ## Straight-line sequences -/

/-- An instruction in an execution, with the block that control came from. -/
structure Executed where
  source : String
  width : Nat
  instruction : IntInstruction width

namespace Executed

/-- The value of the result, if it is defined. -/
def value (s : Executed) (σ : MachineState) : Option (BitVec s.width) :=
  s.instruction.value s.source σ

/-- The name of the result. -/
def result (s : Executed) : String := s.instruction.result

/-- The variables that are read. -/
def uses (s : Executed) : List String := s.instruction.uses s.source

end Executed

namespace StraightLine

/-- The execution of a straight-line sequence, if it is defined. -/
def run : List Executed → MachineState → Option MachineState
  | [], σ => some σ
  | s :: rest, σ => (s.value σ).bind fun value => run rest (σ.set s.width s.result value)

/-- Static single assignment: no result is given twice, or read before it is given. -/
def SSA : List Executed → Prop
  | [] => True
  | s :: rest =>
    s.result ∉ s.uses ∧ (∀ t ∈ rest, t.result ≠ s.result ∧ t.result ∉ s.uses) ∧ SSA rest

/-- The variables that are no results keep their values. -/
theorem run_frame {is : List Executed} {σ σ' : MachineState} (h : run is σ = some σ')
    {name : String} (hname : ∀ t ∈ is, t.result ≠ name) (w : Nat) : σ' w name = σ w name := by
  induction is generalizing σ with
  | nil =>
      obtain rfl := Option.some.inj h
      rfl
  | cons s rest ih =>
      obtain ⟨value, _, hrest⟩ := Option.bind_eq_some_iff.1 h
      calc σ' w name = σ.set s.width s.result value w name :=
            ih hrest fun t ht => hname t (List.mem_cons_of_mem _ ht)
        _ = σ w name := σ.set_of_ne value (hname s List.mem_cons_self) w

/-- **At the end of a sequence every result is what its instruction computes there.** -/
theorem value_of_run {is : List Executed} {σ σ' : MachineState} (hssa : SSA is)
    (h : run is σ = some σ') : ∀ s ∈ is, s.value σ' = some (σ' s.width s.result) := by
  induction is generalizing σ with
  | nil => exact fun s hs => absurd hs List.not_mem_nil
  | cons s rest ih =>
      obtain ⟨huses, hlater, hssa⟩ := hssa
      obtain ⟨value, hvalue, hrest⟩ := Option.bind_eq_some_iff.1 h
      refine List.forall_mem_cons.2 ⟨?_, ih hssa hrest⟩
      -- neither what the instruction read nor its result changes any more
      have hread : s.value σ' = s.value σ := by
        refine IntInstruction.value_congr fun name hname w => ?_
        have hne : s.result ≠ name := fun heq => huses (heq ▸ hname)
        rw [run_frame hrest fun t ht heq => (hlater t ht).2 (heq ▸ hname)]
        exact σ.set_of_ne value hne w
      rw [hread, hvalue, run_frame hrest fun t ht => (hlater t ht).1, MachineState.set_self]

end StraightLine

end Borealis
