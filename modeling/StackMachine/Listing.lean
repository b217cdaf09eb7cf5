import StackMachine.Program
import StackMachine.Text.Decimal

/-!
# Listings

A listing shows a program one item a line, each with the address at which it
starts. The items follow each other without gaps: their words, joined, are the
program. One address can be marked.
-/

namespace StackMachine

open Text

def Item.text : Item → String
  | .instr (.plain op) => op.mnemonic
  | .instr (.operand op value) => op.mnemonic ++ " " ++ value.toDecimal
  | .truncated op => op.mnemonic ++ " <missing>"
  | .unknown w => "?? " ++ w.toDecimal

structure Line where
  index : Nat
  item : Item
  deriving DecidableEq, Repr

namespace Line

def isMarked (mark : Option Word) (line : Line) : Bool :=
  mark.bind Word.index? == some line.index

def text (mark : Option Word) (line : Line) : String :=
  (if line.isMarked mark then ">" else " ") ++ " [" ++
    String.ofList (Decimal.padded 4 (Decimal.ofNat line.index)) ++ "] " ++ line.item.text

def sweep (index : Nat) : List Word → List Line
  | [] => []
  | [w] => [⟨index, .read w none⟩]
  | w :: v :: rest =>
    let item := Item.read w (some v)
    ⟨index, item⟩ :: if item.size = 2 then sweep (index + 2) rest else sweep (index + 1) (v :: rest)

/-- No word is lost, repeated or moved by the division into lines. -/
theorem words_sweep (index : Nat) (words : List Word) :
    (sweep index words).flatMap (·.item.words) = words := by
  fun_induction sweep index words with
  | case1 => rfl
  | case2 index w => simpa using Item.words_read w none
  | case3 index w v rest item ihPair ihOne =>
    have hsize := item.length_words
    rcases Item.words_read w (some v) with h | ⟨_, ⟨⟩, h⟩ <;>
      rw [show item.words = _ from h] at hsize
    · rw [if_neg (by simp [← hsize]), List.flatMap_cons, ihOne]
      exact congrArg (· ++ v :: rest) h
    · rw [if_pos (show item.size = 2 from hsize.symm), List.flatMap_cons, ihPair]
      exact congrArg (· ++ rest) h

end Line

namespace Program

def lines (p : Program) : List Line := Line.sweep 0 p.words.toList

def listing (p : Program) (mark : Option Word) : String :=
  String.join (p.lines.map (·.text mark ++ "\n"))

theorem words_lines (p : Program) : p.lines.flatMap (·.item.words) = p.words.toList :=
  Line.words_sweep 0 _

end Program

end StackMachine
