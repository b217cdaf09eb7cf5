import StackMachine.Cell

/-!
# Opcodes

The instruction table: the code, the mnemonic and the operand of every opcode.
An opcode either stands alone or takes the following word as its operand.
Codes and mnemonics each name one opcode only, so both can be read back.
-/

namespace StackMachine

inductive BinaryOp where
  | add | sub | mul | div | and | or | eq | gt | gte
  deriving DecidableEq, Repr

inductive PlainOp where
  | halt | pop | dup | not | ret
  | binary (op : BinaryOp)
  deriving DecidableEq, Repr

inductive OperandOp where
  | push | jmp | jif | load | store | call
  deriving DecidableEq, Repr

inductive Opcode where
  | plain (op : PlainOp)
  | operand (op : OperandOp)
  deriving DecidableEq, Repr

/-- The value of `left op right`. Both operands of a connective are evaluated,
and only a division by zero has no value. -/
def BinaryOp.apply (op : BinaryOp) (left right : Cell) : Option Cell :=
  match op with
  | .add => some (left + right)
  | .sub => some (left - right)
  | .mul => some (left * right)
  | .div => if right.isZero then none else some (left / right)
  | .and => some (.ofBool (left.isTrue && right.isTrue))
  | .or => some (.ofBool (left.isTrue || right.isTrue))
  | .eq => some (.ofBool (left == right))
  | .gt => some (.ofBool (decide (left > right)))
  | .gte => some (.ofBool (decide (left ≥ right)))

theorem BinaryOp.apply_eq_none_iff {op : BinaryOp} {left right : Cell} :
    op.apply left right = none ↔ op = .div ∧ right.isZero = true := by
  cases op <;> simp [apply]

-- ---------------------------------------------------------------------------
-- Codes and mnemonics
-- ---------------------------------------------------------------------------

def BinaryOp.code : BinaryOp → Word
  | .add => 4
  | .sub => 5
  | .mul => 6
  | .div => 7
  | .and => 9
  | .or => 10
  | .eq => 11
  | .gt => 12
  | .gte => 13

def PlainOp.code : PlainOp → Word
  | .halt => 0
  | .pop => 2
  | .dup => 3
  | .not => 8
  | .ret => 19
  | .binary op => op.code

def OperandOp.code : OperandOp → Word
  | .push => 1
  | .jmp => 14
  | .jif => 15
  | .load => 16
  | .store => 17
  | .call => 18

def BinaryOp.mnemonic : BinaryOp → String
  | .add => "ADD"
  | .sub => "SUB"
  | .mul => "MUL"
  | .div => "DIV"
  | .and => "AND"
  | .or => "OR"
  | .eq => "EQ"
  | .gt => "GT"
  | .gte => "GTE"

def PlainOp.mnemonic : PlainOp → String
  | .halt => "HALT"
  | .pop => "POP"
  | .dup => "DUP"
  | .not => "NOT"
  | .ret => "RET"
  | .binary op => op.mnemonic

def OperandOp.mnemonic : OperandOp → String
  | .push => "PUSH"
  | .jmp => "JMP"
  | .jif => "JIF"
  | .load => "LOAD"
  | .store => "STORE"
  | .call => "CALL"

namespace Opcode

def code : Opcode → Word
  | .plain op => op.code
  | .operand op => op.code

def mnemonic : Opcode → String
  | .plain op => op.mnemonic
  | .operand op => op.mnemonic

def hasOperand : Opcode → Bool
  | .plain _ => false
  | .operand _ => true

/-- A word that is no opcode's code. It stands for mnemonics left unknown. -/
def unmapped : Word := -1

-- ---------------------------------------------------------------------------
-- The table
-- ---------------------------------------------------------------------------

def table : List Opcode :=
  [.plain .halt, .operand .push, .plain .pop, .plain .dup,
   .plain (.binary .add), .plain (.binary .sub), .plain (.binary .mul), .plain (.binary .div),
   .plain .not, .plain (.binary .and), .plain (.binary .or),
   .plain (.binary .eq), .plain (.binary .gt), .plain (.binary .gte),
   .operand .jmp, .operand .jif, .operand .load, .operand .store, .operand .call, .plain .ret]

def ofWord? (w : Word) : Option Opcode := table.find? (·.code == w)

/-- Mnemonics are case-sensitive. -/
def ofMnemonic? (name : String) : Option Opcode := table.find? (·.mnemonic == name)

theorem mem_table (op : Opcode) : op ∈ table := by
  rcases op with (_ | _ | _ | _ | _ | op) | op
  case plain.binary => cases op <;> decide
  case operand => cases op <;> decide
  all_goals decide

@[simp] theorem ofWord?_code (op : Opcode) : ofWord? op.code = some op := by
  rcases op with (_ | _ | _ | _ | _ | op) | op
  case plain.binary => cases op <;> rfl
  case operand => cases op <;> rfl
  all_goals rfl

@[simp] theorem ofMnemonic?_mnemonic (op : Opcode) : ofMnemonic? op.mnemonic = some op := by
  rcases op with (_ | _ | _ | _ | _ | op) | op
  case plain.binary => cases op <;> decide
  case operand => cases op <;> decide
  all_goals decide

@[simp] theorem ofWord?_plain (op : PlainOp) : ofWord? op.code = some (.plain op) :=
  ofWord?_code (.plain op)

@[simp] theorem ofWord?_operand (op : OperandOp) : ofWord? op.code = some (.operand op) :=
  ofWord?_code (.operand op)

@[simp] theorem ofMnemonic?_plain (op : PlainOp) : ofMnemonic? op.mnemonic = some (.plain op) :=
  ofMnemonic?_mnemonic (.plain op)

@[simp] theorem ofMnemonic?_operand (op : OperandOp) :
    ofMnemonic? op.mnemonic = some (.operand op) :=
  ofMnemonic?_mnemonic (.operand op)

theorem ofWord?_eq_some_iff {w : Word} {op : Opcode} : ofWord? w = some op ↔ w = op.code := by
  refine ⟨fun h => ?_, fun h => h ▸ ofWord?_code op⟩
  rw [ofWord?] at h
  have found := List.find?_some h
  exact (eq_of_beq found).symm

theorem ofMnemonic?_eq_some_iff {name : String} {op : Opcode} :
    ofMnemonic? name = some op ↔ name = op.mnemonic := by
  refine ⟨fun h => ?_, fun h => h ▸ ofMnemonic?_mnemonic op⟩
  rw [ofMnemonic?] at h
  have found := List.find?_some h
  exact (eq_of_beq found).symm

theorem ofWord?_unmapped : ofWord? unmapped = none := by decide

end Opcode

end StackMachine
