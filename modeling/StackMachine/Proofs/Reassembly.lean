import StackMachine.Proofs.ListingText
import StackMachine.Proofs.SourceLines

/-!
# Listings read back as source

The entries of a listing are lines of source. Where each of them shows an
instruction they assemble to the listed program; otherwise assembling stops at
the first one that does not (`assemble_entries`). A listing is never taken for
another program.
-/

namespace StackMachine

def Program.entries (p : Program) (mark : Option Word) : List String :=
  (Text.lines (p.listing mark)).map Text.entry

theorem Program.entries_eq (p : Program) (mark : Option Word) :
    p.entries mark = p.lines.map (·.item.text) := by
  rw [entries, lines_listing, List.map_map]
  exact List.map_congr_left fun line _ => line.entry_text mark

def Item.isInstr : Item → Bool
  | .instr _ => true
  | .truncated _ | .unknown _ => false

theorem Item.isInstr_iff {item : Item} : item.isInstr = true ↔ ∃ i, item = .instr i := by
  cases item <;> simp [isInstr]

namespace Statement

-- ---------------------------------------------------------------------------
-- One entry
-- ---------------------------------------------------------------------------

theorem ofLine_text_instr (mode : Mode) (i : Instr) :
    ofLine mode (Item.instr i).text = .ok (some (.instr i)) := by
  rw [ofLine, Item.tokens_text]
  cases i with
  | plain op => simp [Item.tokens, ofTokens, closedBy, Except.map]
  | operand op value => simp [Item.tokens, ofTokens, closedBy, Except.map]

theorem ofLine_text_truncated (mode : Mode) (op : OperandOp) :
    ofLine mode (Item.truncated op).text = .error (.invalidArgument "<missing>") := by
  have note : Word.ofDecimal? "<missing>" = none := by decide
  rw [ofLine, Item.tokens_text]
  simp [Item.tokens, ofTokens, note, Except.map]

theorem ofLine_text_unknown (w : Word) :
    ofLine .lenient (Item.unknown w).text = .error (.unexpectedToken w.toDecimal) ∧
      ofLine .strict (Item.unknown w).text = .error (.unknownMnemonic "??") := by
  have note : Opcode.ofMnemonic? "??" = none := by decide
  rw [ofLine, ofLine, Item.tokens_text]
  simp [Item.tokens, ofTokens, note, closedBy, Except.map]

-- ---------------------------------------------------------------------------
-- All entries
-- ---------------------------------------------------------------------------

theorem ofLines_texts (mode : Mode) {lines : List Line}
    (h : ∀ line ∈ lines, ∃ i, line.item = .instr i) (number : Nat) :
    ∃ statements, ofLines mode number (lines.map (·.item.text)) = .ok statements ∧
      statements.flatMap words = lines.flatMap (·.item.words) := by
  induction lines generalizing number with
  | nil => exact ⟨[], rfl, rfl⟩
  | cons line lines ih =>
    obtain ⟨i, hi⟩ := h line List.mem_cons_self
    obtain ⟨statements, hrest, hwords⟩ :=
      ih (fun other ho => h other (List.mem_cons_of_mem _ ho)) (number + 1)
    refine ⟨.instr i :: statements, ?_, ?_⟩
    · rw [List.map_cons, ofLines, hi, ofLine_text_instr]
      simp [hrest, Except.map]
    · rw [List.flatMap_cons, List.flatMap_cons, hwords, hi]
      rfl

theorem ofLines_stops {mode : Mode} {number : Nat} {before : List String} {line : String}
    {statements : List Statement} {cause : LineError}
    (hbefore : ofLines mode number before = .ok statements) (hline : ofLine mode line = .error cause)
    (after : List String) :
    ofLines mode number (before ++ line :: after) = .error ⟨number + before.length, cause⟩ := by
  rw [ofLines_append, hbefore, ofLines, hline]
  rfl

end Statement

namespace Program

theorem lines_instr_or_first (p : Program) :
    (∀ line ∈ p.lines, ∃ i, line.item = .instr i) ∨
      ∃ (before : List Line) (line : Line) (after : List Line),
        p.lines = before ++ line :: after ∧
        (∀ earlier ∈ before, ∃ i, earlier.item = .instr i) ∧ ¬ ∃ i, line.item = .instr i := by
  cases hfirst : p.lines.find? fun line => !line.item.isInstr with
  | none =>
    refine .inl fun line hl => Item.isInstr_iff.1 ?_
    simpa using List.find?_eq_none.1 hfirst line hl
  | some line =>
    obtain ⟨hline, before, after, hsplit, hbefore⟩ := List.find?_eq_some_iff_append.1 hfirst
    refine .inr ⟨before, line, after, hsplit, fun earlier he => Item.isInstr_iff.1 ?_, ?_⟩
    · simpa using hbefore earlier he
    · rw [← Item.isInstr_iff]
      simpa using hline

variable {p : Program} {mode : Mode}

theorem assemble_entries_ok (mark : Option Word) (h : ∀ line ∈ p.lines, ∃ i, line.item = .instr i) :
    assemble mode (p.entries mark) = .ok p := by
  obtain ⟨statements, hstatements, hwords⟩ := Statement.ofLines_texts mode h 1
  rw [assemble, entries_eq, hstatements]
  simp [Except.map, ofStatements, hwords, words_lines, ofList]

theorem assemble_entries_error {before after : List Line} {line : Line} {cause : LineError}
    (mark : Option Word) (hsplit : p.lines = before ++ line :: after)
    (hbefore : ∀ earlier ∈ before, ∃ i, earlier.item = .instr i)
    (hline : Statement.ofLine mode line.item.text = .error cause) :
    assemble mode (p.entries mark) = .error ⟨before.length + 1, cause⟩ := by
  obtain ⟨statements, hstatements, -⟩ := Statement.ofLines_texts mode hbefore 1
  have stops := Statement.ofLines_stops hstatements hline (after.map (·.item.text))
  rw [List.length_map, Nat.add_comm] at stops
  rw [entries_eq, hsplit, List.map_append, List.map_cons, assemble, stops]
  rfl

/-- Either every line of a listing shows an instruction and its entries, in
both modes, assemble to the program they were listed from; or the first line
that shows none is reported, by its number, for the word or the note on it. -/
theorem assemble_entries (p : Program) (mark : Option Word) :
    (∀ line ∈ p.lines, ∃ i, line.item = .instr i) ∧
        (∀ mode, assemble mode (p.entries mark) = .ok p) ∨
      ∃ (before : List Line) (line : Line) (after : List Line),
        p.lines = before ++ line :: after ∧
        (∀ earlier ∈ before, ∃ i, earlier.item = .instr i) ∧
        ((∃ w, line.item = .unknown w ∧
            assemble .lenient (p.entries mark) =
              .error ⟨before.length + 1, .unexpectedToken w.toDecimal⟩ ∧
            assemble .strict (p.entries mark) =
              .error ⟨before.length + 1, .unknownMnemonic "??"⟩) ∨
          ∃ op, line.item = .truncated op ∧ ∀ mode,
            assemble mode (p.entries mark) =
              .error ⟨before.length + 1, .invalidArgument "<missing>"⟩) := by
  rcases p.lines_instr_or_first with all | ⟨before, line, after, hsplit, hbefore, hline⟩
  · exact .inl ⟨all, fun mode => assemble_entries_ok mark all⟩
  · refine .inr ⟨before, line, after, hsplit, hbefore, ?_⟩
    cases hitem : line.item with
    | instr i => exact absurd ⟨i, hitem⟩ hline
    | unknown w =>
      obtain ⟨lenient, strict⟩ := Statement.ofLine_text_unknown w
      rw [← hitem] at lenient strict
      exact .inl ⟨w, rfl, assemble_entries_error mark hsplit hbefore lenient,
        assemble_entries_error mark hsplit hbefore strict⟩
    | truncated op =>
      refine .inr ⟨op, rfl, fun mode => assemble_entries_error mark hsplit hbefore ?_⟩
      rw [hitem]
      exact Statement.ofLine_text_truncated mode op

/-- The lowest and the highest word keep their value as operands. -/
example :
    assemble .strict ((ofList [1, Int64.minValue, 14, Int64.maxValue]).entries none) =
      .ok (ofList [1, Int64.minValue, 14, Int64.maxValue]) := by
  decide +kernel

end Program

end StackMachine
