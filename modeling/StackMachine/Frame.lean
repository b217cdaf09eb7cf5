import StackMachine.Cell

/-!
# Frames

A frame holds the variables of one activation: finitely many slots with a cell
each. A slot that was never written reads as zero, and writing zero counts as
writing. The slots are kept in ascending order, so a frame has one form only.
-/

namespace StackMachine

structure Frame where
  toList : List (Word × Cell)
  sorted : toList.Pairwise (·.1 < ·.1)

namespace Frame

def insertEntry (slot : Word) (value : Cell) : List (Word × Cell) → List (Word × Cell)
  | [] => [(slot, value)]
  | (k, v) :: rest =>
    if slot < k then (slot, value) :: (k, v) :: rest
    else if slot = k then (slot, value) :: rest
    else (k, v) :: insertEntry slot value rest

theorem mem_insertEntry {slot : Word} {value : Cell} {entries : List (Word × Cell)} {e : Word × Cell}
    (h : e ∈ insertEntry slot value entries) : e = (slot, value) ∨ e ∈ entries := by
  induction entries with
  | nil => simpa [insertEntry] using h
  | cons entry rest ih =>
    obtain ⟨k, v⟩ := entry
    simp only [insertEntry] at h
    split at h
    · simpa using h
    · split at h
      · rcases List.mem_cons.1 h with rfl | h
        · exact .inl rfl
        · exact .inr (List.mem_cons_of_mem _ h)
      · rcases List.mem_cons.1 h with rfl | h
        · exact .inr (by simp)
        · exact (ih h).imp_right (List.mem_cons_of_mem _)

theorem pairwise_insertEntry (slot : Word) (value : Cell) {entries : List (Word × Cell)}
    (h : entries.Pairwise (·.1 < ·.1)) : (insertEntry slot value entries).Pairwise (·.1 < ·.1) := by
  induction entries with
  | nil => simp [insertEntry]
  | cons entry rest ih =>
    obtain ⟨k, v⟩ := entry
    have hrest := List.pairwise_cons.1 h
    simp only [insertEntry]
    split
    · next hlt =>
      refine List.pairwise_cons.2 ⟨fun e he => ?_, h⟩
      rcases List.mem_cons.1 he with rfl | he
      · exact hlt
      · exact Int64.lt_trans hlt (hrest.1 e he)
    · split
      · next heq => exact List.pairwise_cons.2 ⟨heq ▸ hrest.1, hrest.2⟩
      · next hlt hne =>
        refine List.pairwise_cons.2 ⟨fun e he => ?_, ih hrest.2⟩
        rcases mem_insertEntry he with rfl | he
        · exact Int64.lt_of_le_of_ne (Int64.not_lt.1 hlt) (Ne.symm hne)
        · exact hrest.1 e he

def empty : Frame := ⟨[], .nil⟩

def get? (f : Frame) (slot : Word) : Option Cell := f.toList.lookup slot

def get (f : Frame) (slot : Word) : Cell := (f.get? slot).getD 0

def set (f : Frame) (slot : Word) (value : Cell) : Frame :=
  ⟨insertEntry slot value f.toList, pairwise_insertEntry slot value f.sorted⟩

def size (f : Frame) : Nat := f.toList.length

def isEmpty (f : Frame) : Bool := f.toList.isEmpty

/-- Frames agree if the same slots are written and the cells in them are equal
as numbers: the zeros agree with each other, and a NaN with nothing. -/
instance : BEq Frame := ⟨fun f g => f.toList == g.toList⟩

@[ext] theorem ext {f g : Frame} (h : f.toList = g.toList) : f = g := by
  cases f
  cases g
  congr

@[simp] theorem get?_empty (slot : Word) : empty.get? slot = none := rfl

@[simp] theorem get_empty (slot : Word) : empty.get slot = 0 := rfl

theorem get?_set (f : Frame) (slot other : Word) (value : Cell) :
    (f.set slot value).get? other = if other = slot then some value else f.get? other := by
  obtain ⟨entries, sorted⟩ := f
  simp only [get?, set]
  induction entries with
  | nil => grind [insertEntry]
  | cons entry rest ih =>
    obtain ⟨k, v⟩ := entry
    have ih := ih (List.pairwise_cons.1 sorted).2
    grind [insertEntry]

theorem get_set (f : Frame) (slot other : Word) (value : Cell) :
    (f.set slot value).get other = if other = slot then value else f.get other := by
  rw [get, get?_set]
  split <;> rfl

end Frame

end StackMachine
