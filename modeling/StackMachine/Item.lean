import StackMachine.Instr

/-!
# Items

An item is what can be read at an address: an instruction, an opcode whose
operand is cut off by the end of the program, or a word that is no opcode.
-/

namespace StackMachine

inductive Item where
  | instr (i : Instr)
  | truncated (op : OperandOp)
  | unknown (w : Word)
  deriving DecidableEq, Repr

namespace Item

def read (w : Word) (following : Option Word) : Item :=
  match Opcode.ofWord? w, following with
  | some (.plain op), _ => .instr (.plain op)
  | some (.operand op), some value => .instr (.operand op value)
  | some (.operand op), none => .truncated op
  | none, _ => .unknown w

def opcode? : Item → Option Opcode
  | .instr i => some i.opcode
  | .truncated op => some (.operand op)
  | .unknown _ => none

def words : Item → List Word
  | .instr i => i.words
  | .truncated op => [op.code]
  | .unknown w => [w]

def size : Item → Nat
  | .instr i => i.size
  | .truncated _ => 1
  | .unknown _ => 1

@[simp] theorem length_words (item : Item) : item.words.length = item.size := by
  cases item <;> simp [words, size]

theorem size_pos (item : Item) : 0 < item.size := by
  rcases item with (_ | _) | _ | _ <;> simp [size, Instr.size]

@[simp] theorem opcode?_read (w : Word) (following : Option Word) :
    (read w following).opcode? = Opcode.ofWord? w := by
  unfold read
  split <;> simp_all [opcode?, Instr.opcode]

theorem words_read (w : Word) (following : Option Word) :
    (read w following).words = [w] ∨
      ∃ v, following = some v ∧ (read w following).words = [w, v] := by
  unfold read
  split <;> simp_all [words, Instr.words, Opcode.ofWord?_eq_some_iff, Opcode.code]

end Item

end StackMachine
