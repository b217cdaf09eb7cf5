import StackMachine.Word

/-!
# Cells

A cell is an IEEE double, the one kind of value that programs compute with.
Cells double as truth values: every cell but zero counts as true.
-/

namespace StackMachine

abbrev Cell := Float

/-- Both zeros are zero. A NaN is not. -/
def Cell.isZero (c : Cell) : Bool := c == 0

def Cell.isTrue (c : Cell) : Bool := !c.isZero

def Cell.ofBool (b : Bool) : Cell := if b then 1 else 0

/-- The cell nearest to the word's value; halfway cases go to the even one. -/
def Cell.ofWord (w : Word) : Cell := Float.ofInt w.toInt

@[simp] theorem Cell.isTrue_ofBool (b : Bool) : (Cell.ofBool b).isTrue = b := by
  cases b <;> decide

end StackMachine
