import StackMachine.Proofs.Faults
import StackMachine.Proofs.Postfix

/-!
# The instruction table

Column by column, what the instructions do that are executed: the operands that
they replace, where they go on, which variables they change and what becomes of
the waiting callers. A step without a fault does what the row of its instruction
says, and no more (`step_follows_table`).
-/

namespace StackMachine

variable {s t : State} {i : Instr} {addr : Word}

theorem BinaryOp.eq_denote_of_apply {op : BinaryOp} {left right value : Cell}
    (h : op.apply left right = some value) : value = op.denote left right := by
  rw [apply_eq_ite] at h
  split at h
  · cases h
  · exact (Option.some.inj h).symm

-- ---------------------------------------------------------------------------
-- Columns
-- ---------------------------------------------------------------------------

namespace Instr

theorem size_eq_ite (i : Instr) : (i.size : Int) = if i.opcode.hasOperand then 2 else 1 := by
  cases i <;> rfl

/-- The cells that an instruction takes from the stack and those that it leaves in
their place, the top one first. The frame is that of the variables. -/
inductive Replaces (f : Frame) : Instr → List Cell → List Cell → Prop
  | halt : Replaces f (.plain .halt) [] []
  | pop (c : Cell) : Replaces f (.plain .pop) [c] []
  | dup (c : Cell) : Replaces f (.plain .dup) [c] [c, c]
  | not (c : Cell) : Replaces f (.plain .not) [c] [if c == 0 then 1 else 0]
  | ret : Replaces f (.plain .ret) [] []
  | binary (op : BinaryOp) (left right : Cell) :
      Replaces f (.plain (.binary op)) [right, left] [op.denote left right]
  | push (value : Word) : Replaces f (.operand .push value) [] [Float.ofInt value.toInt]
  | jmp (target : Word) : Replaces f (.operand .jmp target) [] []
  | jif (target : Word) (c : Cell) : Replaces f (.operand .jif target) [c] []
  | load (slot : Word) : Replaces f (.operand .load slot) [] [(f.toList.lookup slot).getD 0]
  | store (slot : Word) (c : Cell) : Replaces f (.operand .store slot) [c] []
  | call (target : Word) : Replaces f (.operand .call target) [] []

def GoesTo (s : State) (addr : Word) : Instr → Prop
  | .operand .jmp target => addr = target
  | .operand .call target => addr = target
  | .operand .jif target =>
    ∃ top ∈ s.stack.head?, if top == 0 then addr.toInt = s.ip.toInt + 2 else addr = target
  | .plain .ret => ∃ caller ∈ s.callers.head?, addr = caller.returnAddress
  | i => addr.toInt = s.ip.toInt + if i.opcode.hasOperand then 2 else 1

/-- The variables after an instruction. A store leaves all slots but its own as
they were, written or not. -/
def Sets (s : State) (f : Frame) : Instr → Prop
  | .operand .store slot =>
    ∃ top ∈ s.stack.head?, f.get? slot = some top ∧
      ∀ other, other ≠ slot → f.get? other = s.frame.get? other
  | .operand .call _ => f = .empty
  | .plain .ret => ∃ caller ∈ s.callers.head?, f = caller.frame
  | _ => f = s.frame

def Suspends (s : State) (callers : List Caller) : Instr → Prop
  | .operand .call _ =>
    ∃ caller : Caller, caller.returnAddress.toInt = s.ip.toInt + 2 ∧ caller.frame = s.frame ∧
      callers = caller :: s.callers
  | .plain .ret => ∃ caller, s.callers = caller :: callers
  | _ => callers = s.callers

end Instr

/-- All that the table says of an instruction that leads from `s` to `t`. -/
structure Follows (s : State) (i : Instr) (t : State) : Prop where
  stack : ∃ taken left rest,
    i.Replaces s.frame taken left ∧ s.stack = taken ++ rest ∧ t.stack = left ++ rest
  ip : i.GoesTo s t.ip
  frame : i.Sets s t.frame
  callers : i.Suspends s t.callers
  halted : t.isHalted = true ↔ i = .plain .halt

namespace State

variable {p : Program}

-- ---------------------------------------------------------------------------
-- Rows
-- ---------------------------------------------------------------------------

theorem Executed.stack (h : Executed s i t) : ∃ taken left rest,
    i.Replaces s.frame taken left ∧ s.stack = taken ++ rest ∧ t.stack = left ++ rest := by
  cases h with
  | halt => exact ⟨[], [], _, .halt, rfl, rfl⟩
  | @pop top rest operands => exact ⟨[top], [], rest, .pop top, operands, rfl⟩
  | @dup top rest operands => exact ⟨[top], [top, top], rest, .dup top, operands, rfl⟩
  | @not top rest operands => exact ⟨[top], _, rest, .not top, operands, rfl⟩
  | ret => exact ⟨[], [], _, .ret, rfl, rfl⟩
  | @binary op right left rest value operands defined =>
    obtain rfl := BinaryOp.eq_denote_of_apply defined
    exact ⟨[right, left], _, rest, .binary op left right, operands, rfl⟩
  | @push value => exact ⟨[], _, _, .push value, rfl, rfl⟩
  | @jmp target => exact ⟨[], [], _, .jmp target, rfl, rfl⟩
  | @jif target top rest operands => exact ⟨[top], [], rest, .jif target top, operands, rfl⟩
  | @load slot => exact ⟨[], _, _, .load slot, rfl, rfl⟩
  | @store slot top rest operands => exact ⟨[top], [], rest, .store slot top, operands, rfl⟩
  | @call target => exact ⟨[], [], _, .call target, rfl, rfl⟩

section
variable (h : Executed { s with ip := addr } i t)
  (behind : addr.toInt = s.ip.toInt + if i.opcode.hasOperand then 2 else 1)
include h

theorem Executed.frame : i.Sets s t.frame := by
  cases h with
  | @store slot top rest operands =>
    refine ⟨top, by simp [show s.stack = _ from operands], by simp [Frame.get?_set], ?_⟩
    intro other ne
    simp [Frame.get?_set, ne]
  | @ret caller rest waiting => exact ⟨caller, by simp [show s.callers = _ from waiting], rfl⟩
  | _ => rfl

include behind

theorem Executed.ip : i.GoesTo s t.ip := by
  cases h with
  | jmp | call => rfl
  | @jif target top rest operands =>
    refine ⟨top, by simp [show s.stack = _ from operands], ?_⟩
    cases hz : top == 0 with
    | true => simpa [Cell.isTrue, Cell.isZero, hz, Instr.opcode, Opcode.hasOperand] using behind
    | false => simp [Cell.isTrue, Cell.isZero, hz]
  | @ret caller rest waiting => exact ⟨caller, by simp [show s.callers = _ from waiting], rfl⟩
  | _ => exact behind

theorem Executed.callers : i.Suspends s t.callers := by
  cases h with
  | call => exact ⟨_, behind, rfl, rfl⟩
  | @ret caller rest waiting => exact ⟨caller, waiting⟩
  | _ => rfl

end

-- ---------------------------------------------------------------------------
-- Steps
-- ---------------------------------------------------------------------------

/-- A step that records no fault reads an instruction at its address, the operand
from the word behind it, and follows the row of this instruction. -/
theorem step_follows_table (small : p.size < 2 ^ 60) (hr : s.isHalted = false)
    (quiet : (s.step p).fault? = none) :
    ∃ i, s.opcode? p = some i.opcode ∧
      (∀ op value, i = .operand op value → p.fetch (s.ip + 1) = some value) ∧
      Follows s i (s.step p) := by
  obtain ⟨i, hi, row⟩ := executed_of_quiet hr quiet
  have behind := (Program.toInt_after small hi).trans (congrArg _ i.size_eq_ite)
  refine ⟨i, opcode?_of_item? hi, ?_, ?_⟩
  · rintro op value rfl
    rw [← Program.next_eq_add_one small hi]
    exact (Program.fetch_of_item? hi).2
  · exact ⟨row.stack, row.ip behind, row.frame, row.callers behind, row.isHalted_iff hr⟩

def storeInRoutine : Program := .ofList [1, 9, 18, 4, 17, 3, 16, 3, 19]

theorem storeInRoutine_follows :
    Follows (initial storeInRoutine) (.operand .push 9)
        ((initial storeInRoutine).step storeInRoutine) ∧
      ((initial storeInRoutine).step storeInRoutine).stack = [9] ∧
    Follows ((initial storeInRoutine).run storeInRoutine 2) (.operand .store 3)
        (((initial storeInRoutine).run storeInRoutine 2).step storeInRoutine) ∧
    ((initial storeInRoutine).run storeInRoutine 3).isHalted = false ∧
      (((initial storeInRoutine).run storeInRoutine 3).step storeInRoutine).fault? = none ∧
    Follows ((initial storeInRoutine).run storeInRoutine 3) (.operand .load 3)
        (((initial storeInRoutine).run storeInRoutine 3).step storeInRoutine) ∧
      (((initial storeInRoutine).run storeInRoutine 3).step storeInRoutine).stack = [9] := by
  have row : ∀ (s : State) (op : OperandOp) (value : Word), s.isHalted = false →
      (s.step storeInRoutine).fault? = none → s.opcode? storeInRoutine = some (.operand op) →
      storeInRoutine.fetch (s.ip + 1) = some value →
      Follows s (.operand op value) (s.step storeInRoutine) := by
    intro s op value running quiet found operand
    obtain ⟨i, opcode, fetched, follows⟩ :=
      step_follows_table (p := storeInRoutine) (by decide) running quiet
    cases i with
    | plain op => exact nomatch found.symm.trans opcode
    | operand op value =>
      cases found.symm.trans opcode
      cases operand.symm.trans (fetched op value rfl)
      exact follows
  have pushes := row (initial storeInRoutine) .push 9 (by decide) (by decide) (by decide) (by decide)
  have stores := row ((initial storeInRoutine).run storeInRoutine 2) .store 3
    (by decide) (by decide) (by decide) (by decide)
  have running : ((initial storeInRoutine).run storeInRoutine 3).isHalted = false := by decide
  have quiet :
      (((initial storeInRoutine).run storeInRoutine 3).step storeInRoutine).fault? = none := by
    decide
  have loads := row _ .load 3 running quiet (by decide) (by decide)
  refine ⟨pushes, ?_, stores, running, quiet, loads, ?_⟩
  · obtain ⟨taken, left, rest, replaces, before, after⟩ := pushes.stack
    cases replaces
    have empty : rest = [] := before.symm
    rw [after, empty]
    decide +kernel
  · obtain ⟨taken, left, rest, replaces, before, after⟩ := loads.stack
    cases replaces
    have nothing : ((initial storeInRoutine).run storeInRoutine 3).stack = [] := by rfl
    have empty : rest = [] := before.symm.trans nothing
    rw [after, empty]
    decide +kernel

end State

end StackMachine
