import StackMachine.Fault
import StackMachine.Frame
import StackMachine.Program

/-!
# Machine states

A state holds the address of the next instruction, the operand stack, the
variables of the current activation and the activations that wait for it to
return. Once a state is halted, with or without a fault, it stays as it is.
-/

namespace StackMachine

structure Caller where
  returnAddress : Word
  frame : Frame

inductive Status where
  | running
  | halted
  | faulted (fault : Fault)
  deriving DecidableEq, Repr

structure State where
  ip : Word
  /-- Operands, the top one first. -/
  stack : List Cell
  frame : Frame
  /-- Waiting activations, the latest one first. -/
  callers : List Caller
  status : Status

namespace State

/-- A program without words leaves nothing to do. -/
def initial (p : Program) : State where
  ip := 0
  stack := []
  frame := .empty
  callers := []
  status := if p.isEmpty then .halted else .running

def isHalted (s : State) : Bool := s.status != .running

def fault? (s : State) : Option Fault :=
  match s.status with
  | .faulted fault => some fault
  | _ => none

def depth (s : State) : Nat := s.stack.length

def callDepth (s : State) : Nat := s.callers.length

def stop (s : State) (fault : Fault) : State := { s with status := .faulted fault }

theorem isHalted_of_fault? {s : State} {fault : Fault} (h : s.fault? = some fault) :
    s.isHalted = true := by
  unfold fault? at h
  split at h <;> simp_all [isHalted]

end State

end StackMachine
