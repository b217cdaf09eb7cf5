import StackMachine.Proofs.Boundary
import StackMachine.Proofs.Reassembly

/-!
# Listings lose nothing

What a listing shows of an item tells which item it is, so programs with the
same listing are the same, whatever address is marked in it (`listing_lossless`).
The mark is one character, at the start of the line of the marked address. It is
not there if no line starts at that address.
-/

namespace StackMachine

open Text

-- ---------------------------------------------------------------------------
-- Reading items
-- ---------------------------------------------------------------------------

namespace Item

/-- The item that is shown by its tokens. A second token that is no number stands
for a missing operand. -/
def ofTokens? : List String → Option Item
  | [name] =>
    match Opcode.ofMnemonic? name with
    | some (.plain op) => some (.instr (.plain op))
    | _ => none
  | [name, number] =>
    match Opcode.ofMnemonic? name, Word.ofDecimal? number with
    | some (.operand op), some value => some (.instr (.operand op value))
    | some (.operand op), none => some (.truncated op)
    | none, some w => some (.unknown w)
    | _, _ => none
  | _ => none

theorem ofTokens?_tokens (item : Item) : ofTokens? item.tokens = some item := by
  have missing : Word.ofDecimal? "<missing>" = none := by decide
  have unknown : Opcode.ofMnemonic? "??" = none := by decide
  cases item with
  | instr i => cases i <;> simp [tokens, ofTokens?]
  | truncated op => simp [tokens, ofTokens?, missing]
  | unknown w => simp [tokens, ofTokens?, unknown]

theorem text_injective : Function.Injective text := by
  intro first second same
  have tokens : first.tokens = second.tokens := by
    rw [← tokens_text, same, tokens_text]
  have read : some first = some second := by
    rw [← ofTokens?_tokens, tokens, ofTokens?_tokens]
  exact Option.some.inj read

end Item

-- ---------------------------------------------------------------------------
-- The mark
-- ---------------------------------------------------------------------------

namespace Line

variable {mark : Option Word} {line : Line}

theorem text_of_unmarked (h : line.isMarked mark = false) : line.text mark = line.text none := by
  have unmarked : line.isMarked none = false := rfl
  rw [text, text, h, unmarked]

theorem text_of_marked (h : line.isMarked mark = true) :
    ∃ body, line.text none = " " ++ body ∧ line.text mark = ">" ++ body := by
  have unmarked : line.isMarked none = false := rfl
  refine ⟨" [" ++ String.ofList (Decimal.padded 4 (Decimal.ofNat line.index)) ++ "] " ++
    line.item.text, ?_, ?_⟩
  · simp only [text, unmarked, Bool.false_eq_true, if_false, String.append_assoc]
  · simp only [text, h, if_true, String.append_assoc]

end Line

-- ---------------------------------------------------------------------------
-- Where no line starts
-- ---------------------------------------------------------------------------

theorem Line.exists_mem_sweep {index n : Nat} {words : List Word} (start : index ≤ n)
    (inside : n < index + words.length) :
    ∃ line ∈ sweep index words, line.index ≤ n ∧ n < line.index + line.item.size := by
  fun_induction sweep index words with
  | case1 =>
    rw [List.length_nil] at inside
    omega
  | case2 index w =>
    have wide := (Item.read w none).size_pos
    rw [List.length_singleton] at inside
    refine ⟨_, List.mem_singleton_self _, start, ?_⟩
    dsimp only
    omega
  | case3 index w v rest item ihPair ihOne =>
    simp only [List.length_cons] at inside ihOne
    rcases Nat.lt_or_ge n (index + item.size) with here | behind
    · exact ⟨_, List.mem_cons_self, start, here⟩
    · have wide := item.size_pos
      split
      · next pair =>
        obtain ⟨line, hl, covers⟩ := ihPair (by omega) (by omega)
        exact ⟨line, List.mem_cons_of_mem _ hl, covers⟩
      · obtain ⟨line, hl, covers⟩ := ihOne (by omega) (by omega)
        exact ⟨line, List.mem_cons_of_mem _ hl, covers⟩

theorem Item.size_eq_one_or (item : Item) :
    item.size = 1 ∨ item.size = 2 ∧ ∃ op value, item = .instr (.operand op value) := by
  rcases item with (op | ⟨op, value⟩) | op | w
  · exact .inl rfl
  · exact .inr ⟨rfl, op, value, rfl⟩
  · exact .inl rfl
  · exact .inl rfl

namespace Program

variable {p q : Program} {mark mark' : Option Word} {addr : Word} {line : Line}
  {before after : List Line}

def IsOperand (p : Program) (addr : Word) : Prop :=
  ∃ line ∈ p.lines, ∃ op value, line.item = .instr (.operand op value) ∧
    addr.toInt = line.index + 1

theorem outside_or_isOperand (h : ¬ p.IsBoundary addr) : p.Outside addr ∨ p.IsOperand addr := by
  by_cases outside : p.Outside addr
  · exact .inl outside
  · simp only [Outside, not_or, Int.not_lt, Int.not_le] at outside
    obtain ⟨n, hn⟩ := Int.eq_ofNat_of_zero_le outside.1
    have inside : n < 0 + p.words.toList.length := by
      rw [Array.length_toList, Nat.zero_add]
      exact Int.ofNat_lt.1 (hn ▸ outside.2)
    obtain ⟨line, hl, le, lt⟩ := Line.exists_mem_sweep (Nat.zero_le n) inside
    have elsewhere : n ≠ line.index := fun same => h ⟨line, hl, by rw [hn, same]⟩
    rcases line.item.size_eq_one_or with one | ⟨two, op, value, hitem⟩
    · omega
    · exact .inr ⟨line, hl, op, value, hitem, by omega⟩

-- ---------------------------------------------------------------------------
-- Marked listings
-- ---------------------------------------------------------------------------

theorem listing_of_not_boundary (h : ¬ p.IsBoundary addr) :
    p.listing (some addr) = p.listing none := by
  have unmarked : p.lines.map (·.text (some addr) ++ "\n") = p.lines.map (·.text none ++ "\n") := by
    refine List.map_congr_left fun line hl => ?_
    have elsewhere : line.isMarked (some addr) = false := by
      by_contra marked
      exact h ⟨line, hl, isMarked_iff.1 (by simpa using marked)⟩
    rw [Line.text_of_unmarked elsewhere]
  rw [listing, listing, unmarked]

theorem lines_listing_of_boundary (hsplit : p.lines = before ++ line :: after)
    (ha : addr.toInt = line.index) :
    ∃ body,
      Text.lines (p.listing none) =
        before.map (·.text none) ++ (" " ++ body) :: after.map (·.text none) ∧
      Text.lines (p.listing (some addr)) =
        before.map (·.text none) ++ (">" ++ body) :: after.map (·.text none) := by
  obtain ⟨hbefore, hafter⟩ := isMarked_of_split hsplit ha
  obtain ⟨body, plain, marked⟩ := Line.text_of_marked (isMarked_iff.2 ha)
  refine ⟨body, ?_, ?_⟩
  · rw [lines_listing, hsplit, List.map_append, List.map_cons, plain]
  · rw [lines_listing, hsplit, List.map_append, List.map_cons, marked,
      List.map_congr_left fun other ho => Line.text_of_unmarked (hbefore other ho),
      List.map_congr_left fun other ho => Line.text_of_unmarked (hafter other ho)]

-- ---------------------------------------------------------------------------
-- All listings
-- ---------------------------------------------------------------------------

theorem eq_of_listing_eq (h : p.listing mark = q.listing mark') : p = q := by
  have entries : p.lines.map (·.item.text) = q.lines.map (·.item.text) := by
    rw [← p.entries_eq mark, ← q.entries_eq mark', Program.entries, Program.entries, h]
  have items : p.lines.map (·.item) = q.lines.map (·.item) := by
    refine Item.text_injective.list_map ?_
    rwa [List.map_map, List.map_map]
  have words : p.words.toList = q.words.toList := by
    have flat := congrArg (List.flatMap Item.words) items
    rwa [List.flatMap_map, List.flatMap_map, words_lines, words_lines] at flat
  cases p
  cases q
  exact congrArg Program.mk (Array.toList_inj.1 words)

theorem listing_eq_join (p : Program) (mark : Option Word) :
    p.listing mark = String.join ((Text.lines (p.listing mark)).map (· ++ "\n")) := by
  rw [lines_listing, List.map_map]
  rfl

/-- Two programs have the same listing only if they are the same program. The
mark replaces the space in front of the line which starts at the marked address;
at no other address, outside the program or at an operand, is it seen. -/
theorem listing_lossless (p : Program) :
    (∀ q mark mark', p.listing mark = q.listing mark' → p = q) ∧
    (∀ mark, p.listing mark = String.join ((Text.lines (p.listing mark)).map (· ++ "\n"))) ∧
    (∀ addr, ¬ p.IsBoundary addr →
      (p.Outside addr ∨ p.IsOperand addr) ∧ p.listing (some addr) = p.listing none) ∧
    ∀ (before : List Line) (line : Line) (after : List Line) (addr : Word),
      p.lines = before ++ line :: after → addr.toInt = line.index →
      ∃ body,
        Text.lines (p.listing none) =
          before.map (·.text none) ++ (" " ++ body) :: after.map (·.text none) ∧
        Text.lines (p.listing (some addr)) =
          before.map (·.text none) ++ (">" ++ body) :: after.map (·.text none) :=
  ⟨fun _ _ _ => eq_of_listing_eq, p.listing_eq_join,
    fun _ h => ⟨outside_or_isOperand h, listing_of_not_boundary h⟩,
    fun _ _ _ _ => lines_listing_of_boundary⟩

theorem markedOperand_listing :
    (ofList [1, 7, -1]).listing (some 1) =
        (ofStatements [.instr (.operand .push 7), .unknown]).listing none ∧
      ofList [1, 7, -1] = ofStatements [.instr (.operand .push 7), .unknown] ∧
      (¬ (ofList [1, 7, -1]).IsBoundary 1 ∧
        (ofList [1, 7, -1]).listing (some 1) = (ofList [1, 7, -1]).listing none) ∧
      ∃ body,
        Text.lines ((ofList [1, 7, -1]).listing none) = "  [0000] PUSH 7" :: [" " ++ body] ∧
        Text.lines ((ofList [1, 7, -1]).listing (some 2)) = "  [0000] PUSH 7" :: [">" ++ body] := by
  obtain ⟨injective, -, elsewhere, marked⟩ := listing_lossless (ofList [1, 7, -1])
  have same : (ofList [1, 7, -1]).listing (some 1) =
      (ofStatements [.instr (.operand .push 7), .unknown]).listing none := by decide +kernel
  have operand : ¬ (ofList [1, 7, -1]).IsBoundary 1 := by
    have starts : ∀ line ∈ (ofList [1, 7, -1]).lines, (1 : Word).toInt ≠ line.index := by decide
    exact fun ⟨line, hl, here⟩ => starts line hl here
  have split : (ofList [1, 7, -1]).lines =
      [⟨0, .instr (.operand .push 7)⟩] ++ ⟨2, .unknown (-1)⟩ :: [] := by decide
  obtain ⟨body, plain, atTwo⟩ := marked _ _ _ 2 split (by decide)
  have first : Line.text none ⟨0, .instr (.operand .push 7)⟩ = "  [0000] PUSH 7" := by decide
  rw [List.map_singleton, first] at plain atTwo
  exact ⟨same, injective _ _ _ same, ⟨operand, (elsewhere 1 operand).2⟩, body, plain, atTwo⟩

end Program

end StackMachine
