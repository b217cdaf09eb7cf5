import StackMachine.Opcode

/-!
# Instructions

An instruction is an opcode with its operand, if it takes one.
-/

namespace StackMachine

inductive Instr where
  | plain (op : PlainOp)
  | operand (op : OperandOp) (value : Word)
  deriving DecidableEq, Repr

namespace Instr

def opcode : Instr → Opcode
  | .plain op => .plain op
  | .operand op _ => .operand op

def words : Instr → List Word
  | .plain op => [op.code]
  | .operand op value => [op.code, value]

def size : Instr → Nat
  | .plain _ => 1
  | .operand .. => 2

@[simp] theorem length_words (i : Instr) : i.words.length = i.size := by cases i <;> rfl

end Instr

end StackMachine
