import Mathlib
import StackMachine.Step

/-!
# Refused instructions

An instruction that was read in full is refused if its operands or its caller
are missing, or if it would divide by zero. `Instr.refusal` tells from the state
before which fault there is (`fault?_execute`). A refused instruction changes
nothing but the operands (`execute_of_refusal`). One that is not refused is
executed: `Executed` has a rule for each opcode, from which later lemmas read
what the execution does to a part of the state.
-/

namespace StackMachine

def BinaryOp.refuses (op : BinaryOp) : List Cell → Bool
  | right :: _ :: _ => op = .div && right.isZero
  | _ => true

/-- The fault that keeps an instruction from being executed, if one does. -/
def Instr.refusal (s : State) : Instr → Option Fault
  | .plain .pop | .plain .dup | .operand .jif _ | .operand .store _ =>
    if s.depth = 0 then some .stackOp else none
  | .plain .ret => if s.callDepth = 0 then some .stackOp else none
  | .plain .not => if s.depth = 0 then some .unaryOp else none
  | .plain (.binary op) => if op.refuses s.stack then some .binaryOp else none
  | .plain .halt | .operand .push _ | .operand .jmp _ | .operand .load _ | .operand .call _ => none

def Fault.consumes : Fault → Nat
  | .binaryOp => 2
  | .unaryOp | .stackOp | .dispatch => 0

theorem BinaryOp.refuses_iff {op : BinaryOp} {stack : List Cell} :
    op.refuses stack = true ↔
      stack.length < 2 ∨ op = .div ∧ ∃ right ∈ stack.head?, right == 0 := by
  rcases stack with _ | ⟨right, _ | ⟨left, rest⟩⟩ <;> simp [refuses, Cell.isZero]

theorem Instr.refusal_eq_some_iff {i : Instr} {s : State} {fault : Fault} :
    i.refusal s = some fault ↔ match fault with
    | .dispatch => False
    | .unaryOp => s.depth = 0 ∧ i = .plain .not
    | .binaryOp => ∃ op : BinaryOp, op.refuses s.stack = true ∧ i = .plain (.binary op)
    | .stackOp => s.depth = 0 ∧ (i = .plain .pop ∨ i = .plain .dup ∨
        ∃ value, i = .operand .jif value ∨ i = .operand .store value) ∨
        s.callDepth = 0 ∧ i = .plain .ret := by
  rcases i with (_ | _ | _ | _ | _ | op) | ⟨_ | _ | _ | _ | _ | _, value⟩ <;> cases fault <;>
    simp [refusal]

namespace State

variable {s : State} {i : Instr} {fault : Fault}

theorem stack_eq_nil (h : s.depth = 0) : s.stack = [] := List.length_eq_zero_iff.1 h

theorem callers_eq_nil (h : s.callDepth = 0) : s.callers = [] := List.length_eq_zero_iff.1 h

-- ---------------------------------------------------------------------------
-- Refused
-- ---------------------------------------------------------------------------

theorem executeBinary_of_refuses {op : BinaryOp} (h : op.refuses s.stack = true) :
    s.executeBinary op = { s with stack := s.stack.drop 2 }.stop .binaryOp := by
  rcases hs : s.stack with _ | ⟨right, _ | ⟨left, rest⟩⟩
  · simp [executeBinary, hs]
  · simp [executeBinary, hs]
  · have undefined : op.apply left right = none := by
      simpa [hs, BinaryOp.refuses, BinaryOp.apply_eq_none_iff] using h
    simp [executeBinary, hs, undefined]

/-- A refused instruction takes its operands, if its fault does, and no more. -/
theorem execute_of_refusal (h : i.refusal s = some fault) :
    s.execute i = { s with stack := s.stack.drop fault.consumes }.stop fault := by
  rw [Instr.refusal_eq_some_iff] at h
  cases fault with
  | dispatch => exact h.elim
  | unaryOp =>
    obtain ⟨hs, rfl⟩ := h
    show s.execute (.plain .not) = s.stop .unaryOp
    simp [execute, executePlain, stack_eq_nil hs]
  | binaryOp =>
    obtain ⟨op, hs, rfl⟩ := h
    exact executeBinary_of_refuses hs
  | stackOp =>
    show s.execute i = s.stop .stackOp
    rcases h with ⟨hs, rfl | rfl | ⟨value, rfl | rfl⟩⟩ | ⟨hc, rfl⟩
    · simp [execute, executePlain, stack_eq_nil hs]
    · simp [execute, executePlain, stack_eq_nil hs]
    · simp [execute, executeOperand, stack_eq_nil hs]
    · simp [execute, executeOperand, stack_eq_nil hs]
    · simp [execute, executePlain, callers_eq_nil hc]

-- ---------------------------------------------------------------------------
-- Executed
-- ---------------------------------------------------------------------------

theorem executeBinary_of_accepts {op : BinaryOp} (h : op.refuses s.stack = false) :
    ∃ right left rest value, s.stack = right :: left :: rest ∧ op.apply left right = some value ∧
      s.executeBinary op = { s with stack := value :: rest } := by
  rcases hs : s.stack with _ | ⟨right, _ | ⟨left, rest⟩⟩
  · simp [hs, BinaryOp.refuses] at h
  · simp [hs, BinaryOp.refuses] at h
  · cases hv : op.apply left right with
    | none =>
      rw [BinaryOp.apply_eq_none_iff] at hv
      simp [hs, BinaryOp.refuses, hv] at h
    | some value => exact ⟨right, left, rest, value, rfl, hv, by simp [executeBinary, hs, hv]⟩

/-- What becomes of a state in which an instruction is executed, one rule for each
opcode. The state has already moved past the instruction. -/
inductive Executed (s : State) : Instr → State → Prop
  | halt : Executed s (.plain .halt) { s with status := .halted }
  | pop {top rest} (operands : s.stack = top :: rest) :
      Executed s (.plain .pop) { s with stack := rest }
  | dup {top rest} (operands : s.stack = top :: rest) :
      Executed s (.plain .dup) { s with stack := top :: top :: rest }
  | not {top rest} (operands : s.stack = top :: rest) :
      Executed s (.plain .not) { s with stack := .ofBool top.isZero :: rest }
  | ret {caller rest} (waiting : s.callers = caller :: rest) :
      Executed s (.plain .ret)
        { s with ip := caller.returnAddress, frame := caller.frame, callers := rest }
  | binary {op right left rest value} (operands : s.stack = right :: left :: rest)
      (defined : op.apply left right = some value) :
      Executed s (.plain (.binary op)) { s with stack := value :: rest }
  | push {value} : Executed s (.operand .push value) { s with stack := .ofWord value :: s.stack }
  | jmp {target} : Executed s (.operand .jmp target) { s with ip := target }
  | jif {target top rest} (operands : s.stack = top :: rest) :
      Executed s (.operand .jif target)
        { s with ip := if top.isTrue then target else s.ip, stack := rest }
  | load {slot} :
      Executed s (.operand .load slot) { s with stack := s.frame.get slot :: s.stack }
  | store {slot top rest} (operands : s.stack = top :: rest) :
      Executed s (.operand .store slot) { s with stack := rest, frame := s.frame.set slot top }
  | call {target} :
      Executed s (.operand .call target)
        { s with ip := target, frame := .empty, callers := ⟨s.ip, s.frame⟩ :: s.callers }

theorem executed (h : i.refusal s = none) : Executed s i (s.execute i) := by
  rcases i with op | ⟨op, value⟩
  · cases op with
    | halt => exact .halt
    | binary op =>
      have accepted : op.refuses s.stack = false := by simpa [Instr.refusal] using h
      obtain ⟨right, left, rest, value, operands, defined, hvalue⟩ :=
        executeBinary_of_accepts accepted
      show Executed s _ (s.executeBinary op)
      rw [hvalue]
      exact .binary operands defined
    | pop | dup | not =>
      cases hs : s.stack with
      | nil => simp [Instr.refusal, depth, hs] at h
      | cons top rest =>
        simp only [execute, executePlain, hs]
        constructor
        exact hs
    | ret =>
      cases hc : s.callers with
      | nil => simp [Instr.refusal, callDepth, hc] at h
      | cons caller rest =>
        simp only [execute, executePlain, hc]
        exact .ret hc
  · cases op with
    | push => exact .push
    | jmp => exact .jmp
    | load => exact .load
    | call => exact .call
    | jif | store =>
      cases hs : s.stack with
      | nil => simp [Instr.refusal, depth, hs] at h
      | cons top rest =>
        simp only [execute, executeOperand, hs]
        constructor
        exact hs

theorem Executed.status {t : State} (h : Executed s i t) :
    t.status = if i = .plain .halt then .halted else s.status := by
  cases h <;> rfl

theorem Executed.isHalted_iff {t : State} (h : Executed s i t) (hr : s.isHalted = false) :
    t.isHalted = true ↔ i = .plain .halt := by
  rw [isHalted, h.status]
  by_cases ended : i = .plain .halt
  · simp [ended]
  · rw [if_neg ended, ← isHalted, hr]
    simp [ended]

theorem fault?_execute (hs : s.fault? = none) : (s.execute i).fault? = i.refusal s := by
  cases h : i.refusal s with
  | some fault =>
    rw [execute_of_refusal h]
    rfl
  | none =>
    rw [fault?, (executed h).status]
    by_cases ended : i = .plain .halt
    · rw [if_pos ended]
    · rw [if_neg ended]
      exact hs

end State

end StackMachine
