import StackMachine.Item

/-!
# Programs

A program is a sequence of words, numbered from zero. Fetching outside it
yields nothing, for negative addresses as for those past the end.
-/

namespace StackMachine

structure Program where
  words : Array Word
  deriving DecidableEq, Repr

namespace Program

def ofList (words : List Word) : Program := ⟨words.toArray⟩

def size (p : Program) : Nat := p.words.size

def isEmpty (p : Program) : Bool := p.words.isEmpty

def fetch (p : Program) (addr : Word) : Option Word := addr.index?.bind (p.words[·]?)

def item? (p : Program) (addr : Word) : Option Item :=
  (p.fetch addr).map fun w => .read w (p.fetch addr.next)

@[simp] theorem words_ofList (words : List Word) : (ofList words).words.toList = words := rfl

@[simp] theorem size_ofList (words : List Word) : (ofList words).size = words.length := by
  simp [size, ofList]

theorem isEmpty_iff_size (p : Program) : p.isEmpty = true ↔ p.size = 0 := by
  simp [isEmpty, size]

theorem fetch_of_toInt {p : Program} {addr : Word} {n : Nat} (h : addr.toInt = n) :
    p.fetch addr = p.words[n]? := by
  simp [fetch, Word.index?_eq_some_iff.2 h]

theorem fetch_of_neg {p : Program} {addr : Word} (h : addr.toInt < 0) : p.fetch addr = none := by
  simp [fetch, Word.index?_eq_none_iff.2 h]

theorem fetch_eq_none_iff {p : Program} {addr : Word} :
    p.fetch addr = none ↔ addr.toInt < 0 ∨ p.size ≤ addr.toInt := by
  rcases Int.lt_or_le addr.toInt 0 with h | h
  · simp [fetch_of_neg h, h]
  · obtain ⟨n, hn⟩ := Int.eq_ofNat_of_zero_le h
    rw [fetch_of_toInt hn, Array.getElem?_eq_none_iff, hn]
    simp only [size]
    omega

end Program

end StackMachine
