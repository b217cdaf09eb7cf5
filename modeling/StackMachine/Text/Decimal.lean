import StackMachine.Word

/-!
# Decimal text

Numbers are written with the fewest decimal digits and a minus sign where
needed. Reading is more lenient: either sign and leading zeros are accepted.
Main statement: reading a written number gives the number back.
-/

namespace StackMachine.Text.Decimal

def ofNat (n : Nat) : List Char := Nat.toDigits 10 n

def ofInt : Int → List Char
  | .ofNat n => ofNat n
  | .negSucc n => '-' :: ofNat (n + 1)

def padded (width : Nat) (text : List Char) : List Char := text.leftpad width '0'

def toNat? (text : List Char) : Option Nat :=
  if text ≠ [] ∧ text.all Char.isDigit then some (Nat.ofDigitChars 10 text 0) else none

def toInt? : List Char → Option Int
  | '+' :: digits => (toNat? digits).map Int.ofNat
  | '-' :: digits => (toNat? digits).map fun n => -Int.ofNat n
  | digits => (toNat? digits).map Int.ofNat

theorem isDigit_of_mem_ofNat {n : Nat} {c : Char} (h : c ∈ ofNat n) : c.isDigit = true :=
  Nat.isDigit_of_mem_toDigits (by decide) (by decide) h

@[simp] theorem toNat?_ofNat (n : Nat) : toNat? (ofNat n) = some n := by
  have hall : (ofNat n).all Char.isDigit = true :=
    List.all_eq_true.2 fun c h => isDigit_of_mem_ofNat h
  rw [toNat?, if_pos ⟨Nat.toDigits_ne_nil, hall⟩, ofNat,
    Nat.ofDigitChars_toDigits (by decide) (by decide)]

theorem toInt?_of_isDigit {c : Char} {text : List Char} (h : c.isDigit = true) :
    toInt? (c :: text) = (toNat? (c :: text)).map Int.ofNat := by
  unfold toInt?
  split
  · next heq =>
    cases heq
    simp at h
  · next heq =>
    cases heq
    simp at h
  · rfl

@[simp] theorem toInt?_ofInt (i : Int) : toInt? (ofInt i) = some i := by
  cases i with
  | ofNat n =>
    cases h : ofNat n with
    | nil => exact absurd h Nat.toDigits_ne_nil
    | cons c text =>
      have hc : c.isDigit = true := isDigit_of_mem_ofNat (n := n) (by simp [h])
      rw [ofInt, h, toInt?_of_isDigit hc, ← h, toNat?_ofNat]
      rfl
  | negSucc n =>
    simp only [ofInt, toInt?, toNat?_ofNat, Option.map_some]
    rfl

end StackMachine.Text.Decimal

namespace StackMachine.Word

open Text

def toDecimal (w : Word) : String := String.ofList (Decimal.ofInt w.toInt)

def ofDecimal? (text : String) : Option Word := (Decimal.toInt? text.toList).bind ofInt?

@[simp] theorem ofDecimal?_toDecimal (w : Word) : ofDecimal? (toDecimal w) = some w := by
  simp [ofDecimal?, toDecimal, ofInt?_toInt]

end StackMachine.Word
