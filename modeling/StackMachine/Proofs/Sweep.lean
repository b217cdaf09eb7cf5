import StackMachine.Listing
import StackMachine.Proofs.Transition

/-!
# Where lines start

A listing divides a program into items. Each line starts where the one before
it ends, the last one ends with the program, and the item on a line is what is
read at its address (`item?_of_mem_lines`): the listing and the machine divide
the words in the same way.
-/

namespace StackMachine

theorem Item.size_read (w : Word) (following : Option Word) :
    (read w following).size = 1 ∨ following ≠ none ∧ (read w following).size = 2 := by
  rw [← length_words]
  rcases words_read w following with h | ⟨v, rfl, h⟩
  · exact .inl (by rw [h]; rfl)
  · exact .inr ⟨by simp, by rw [h]; rfl⟩

namespace Line

-- ---------------------------------------------------------------------------
-- The sweep
-- ---------------------------------------------------------------------------

theorem sweep_cons (index : Nat) (w : Word) (rest : List Word) :
    sweep index (w :: rest) =
      ⟨index, .read w rest.head?⟩ ::
        sweep (index + (Item.read w rest.head?).size)
          ((w :: rest).drop (Item.read w rest.head?).size) := by
  cases rest with
  | nil =>
    rcases Item.size_read w none with h | ⟨h, -⟩
    · simp [sweep, h]
    · exact absurd rfl h
  | cons v rest =>
    rcases Item.size_read w (some v) with h | ⟨-, h⟩
    · simp [sweep, h]
    · simp [sweep, h]

variable {index : Nat} {words : List Word} {line : Line} {lines before after : List Line}

theorem sweep_eq_nil (h : sweep index words = []) : words = [] := by
  cases words with
  | nil => rfl
  | cons w rest =>
    rw [sweep_cons] at h
    cases h

theorem sweep_eq_cons (h : sweep index words = line :: lines) :
    ∃ w, words[0]? = some w ∧ line = ⟨index, .read w words[1]?⟩ ∧
      sweep (index + line.item.size) (words.drop line.item.size) = lines := by
  cases words with
  | nil => cases h
  | cons w rest =>
    rw [sweep_cons, List.cons.injEq] at h
    obtain ⟨rfl, rfl⟩ := h
    exact ⟨w, rfl, by simp [List.head?_eq_getElem?], rfl⟩

/-- Any line of a sweep: it starts behind the items before it, its item is read
there, and the lines after it are the sweep of the words behind. -/
theorem sweep_eq_append (h : sweep index words = before ++ line :: after) :
    ∃ offset w, offset = (before.map (·.item.size)).sum ∧ words[offset]? = some w ∧
      line = ⟨index + offset, .read w words[offset + 1]?⟩ ∧
      sweep (index + offset + line.item.size) (words.drop (offset + line.item.size)) = after := by
  -- on the lines before, not on the words: a line takes up one word or two
  induction before generalizing index words with
  | nil =>
    obtain ⟨w, hw, hline, hafter⟩ := sweep_eq_cons h
    exact ⟨0, w, rfl, hw, hline, by simpa using hafter⟩
  | cons first before ih =>
    obtain ⟨_, -, -, hrest⟩ := sweep_eq_cons h
    obtain ⟨offset, w, hoffset, hw, hline, hafter⟩ := ih hrest
    rw [List.getElem?_drop] at hw
    rw [List.getElem?_drop] at hline
    rw [List.drop_drop] at hafter
    refine ⟨first.item.size + offset, w, by simp [hoffset], hw, ?_, ?_⟩
    · rw [hline, Nat.add_assoc, Nat.add_assoc]
    · rw [← hafter]
      congr 1
      · omega
      · congr 1
        omega

theorem le_index_of_mem_sweep (h : line ∈ sweep index words) : index ≤ line.index := by
  obtain ⟨before, after, hsplit⟩ := List.append_of_mem h
  obtain ⟨offset, _, -, -, hline, -⟩ := sweep_eq_append hsplit
  rw [hline]
  exact Nat.le_add_right _ _

theorem sweep_pairwise (index : Nat) (words : List Word) :
    (sweep index words).Pairwise (·.index < ·.index) := by
  generalize h : sweep index words = lines
  induction lines generalizing index words with
  | nil => exact .nil
  | cons first lines ih =>
    obtain ⟨w, -, hfirst, hrest⟩ := sweep_eq_cons h
    refine List.pairwise_cons.2 ⟨fun line hl => ?_, ih _ _ hrest⟩
    have := le_index_of_mem_sweep (hrest ▸ hl)
    have := first.item.size_pos
    have : first.index = index := by rw [hfirst]
    omega

end Line

-- ---------------------------------------------------------------------------
-- The lines of a program
-- ---------------------------------------------------------------------------

namespace Program

variable {p : Program} {addr : Word} {line : Line} {before after : List Line}

def IsBoundary (p : Program) (addr : Word) : Prop := ∃ line ∈ p.lines, addr.toInt = line.index

theorem lines_pairwise (p : Program) : p.lines.Pairwise (·.index < ·.index) :=
  Line.sweep_pairwise 0 _

theorem index_of_lines (h : p.lines = before ++ line :: after) :
    line.index = (before.map (·.item.size)).sum := by
  obtain ⟨offset, _, hoffset, -, hline, -⟩ := Line.sweep_eq_append h
  rw [hline, ← hoffset, Nat.zero_add]

theorem read_of_mem_lines (h : line ∈ p.lines) :
    ∃ w, p.words[line.index]? = some w ∧ line.item = .read w p.words[line.index + 1]? := by
  obtain ⟨before, after, hsplit⟩ := List.append_of_mem h
  obtain ⟨offset, w, -, hw, hline, -⟩ := Line.sweep_eq_append hsplit
  rw [hline, Nat.zero_add]
  exact ⟨w, by simpa using hw, by simp⟩

/-- The machine reads at the start of a line what the line shows. -/
theorem item?_of_mem_lines (small : p.size < 2 ^ 60) (h : line ∈ p.lines)
    (ha : addr.toInt = line.index) : p.item? addr = some line.item := by
  obtain ⟨w, hw, hitem⟩ := read_of_mem_lines h
  rw [hitem]
  exact item?_of_toInt small ha hw

theorem lines_next (h : p.lines = before ++ line :: after) :
    match after with
    | [] => line.index + line.item.size = p.size
    | next :: _ => line.index + line.item.size = next.index := by
  cases after with
  | nil =>
    have hsize : (p.lines.flatMap (·.item.words)).length = p.size := by
      rw [words_lines, Array.length_toList, size]
    rw [h] at hsize
    simpa [List.length_flatMap, index_of_lines h] using hsize
  | cons next after =>
    have hnext : p.lines = (before ++ [line]) ++ next :: after := by simpa using h
    simp [index_of_lines h, index_of_lines hnext]

theorem isBoundary_zero (h : p.isEmpty = false) : p.IsBoundary 0 := by
  cases hl : p.lines with
  | nil =>
    have hwords : p.words = #[] := Array.toList_eq_nil_iff.1 (Line.sweep_eq_nil hl)
    simp [isEmpty, hwords] at h
  | cons line rest =>
    obtain ⟨w, -, hline, -⟩ := Line.sweep_eq_cons hl
    exact ⟨line, by simp [hl], by simp [hline]⟩

theorem IsBoundary.next {i : Instr} (small : p.size < 2 ^ 60) (h : p.IsBoundary addr)
    (hi : p.item? addr = some (.instr i)) :
    p.IsBoundary (i.opcode.after addr) ∨
      (i.opcode.after addr).toInt = p.size ∧ (p.lines.map (·.item)).getLast? = some (.instr i) := by
  obtain ⟨line, hl, ha⟩ := h
  have hitem := item?_of_mem_lines small hl ha
  have hafter := toInt_after small hi
  rw [hi, Option.some.injEq] at hitem
  obtain ⟨before, after, hsplit⟩ := List.append_of_mem hl
  have hnext := lines_next hsplit
  rw [← hitem, Item.size] at hnext
  cases after with
  | nil =>
    refine .inr ⟨by omega, ?_⟩
    rw [hsplit, hitem]
    simp
  | cons next after => exact .inl ⟨next, by simp [hsplit], by omega⟩

end Program

end StackMachine
