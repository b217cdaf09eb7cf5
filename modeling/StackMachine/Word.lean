/-!
# Words

A word is a signed 64-bit integer. It serves as opcode, operand, variable slot
and address alike. Addresses that grow past the highest word stay there.
-/

namespace StackMachine

abbrev Word := Int64

def Word.index? (w : Word) : Option Nat := w.toInt.toNat?

/-- The following address. The highest word is its own successor. -/
def Word.next (w : Word) : Word := if w = Int64.maxValue then w else w + 1

def Word.ofInt? (i : Int) : Option Word :=
  if -0x8000000000000000 ≤ i ∧ i < 0x8000000000000000 then some (Int64.ofInt i) else none

theorem Word.index?_eq_some_iff {w : Word} {n : Nat} : w.index? = some n ↔ w.toInt = n := by
  simpa [index?] using Int.mem_toNat? (a := w.toInt) (n := n)

theorem Word.index?_eq_none_iff {w : Word} : w.index? = none ↔ w.toInt < 0 := by
  rw [index?]
  cases w.toInt <;> simp [Int.toNat?]

theorem Word.toInt_next (w : Word) : w.next.toInt = min (w.toInt + 1) 0x7FFFFFFFFFFFFFFF := by
  have hlo := w.le_toInt
  have hhi := w.toInt_lt
  unfold next
  split
  · subst w
    decide
  · next h =>
    have hne : w.toInt ≠ 0x7FFFFFFFFFFFFFFF := fun he => h (Int64.toInt_inj.1 (he.trans (by decide)))
    rw [Int64.toInt_add, show (1 : Int64).toInt = 1 from rfl, Int.bmod_eq_of_le (by omega) (by omega)]
    omega

theorem Word.ofInt?_toInt (w : Word) : ofInt? w.toInt = some w := by
  rw [ofInt?, if_pos ⟨w.le_toInt, w.toInt_lt⟩, Int64.ofInt_toInt]

theorem Word.ofInt?_eq_some_iff {i : Int} {w : Word} : ofInt? i = some w ↔ w.toInt = i := by
  refine ⟨fun h => ?_, fun h => h ▸ ofInt?_toInt w⟩
  simp only [ofInt?, Option.ite_none_right_eq_some, Option.some.injEq] at h
  rw [← h.2, Int64.toInt_ofInt_of_le h.1.1 h.1.2]

end StackMachine
