import StackMachine.Source
import StackMachine.Proofs.Sweep

/-!
# Statements and their places

Source is translated line by line: what is said of lines one after the other
is said of the statements on them. The listing of the program has one line for
each statement (`items_lines_ofStatements`), so statements start where the
machine reads them.
-/

namespace StackMachine

-- ---------------------------------------------------------------------------
-- Blank lines
-- ---------------------------------------------------------------------------

namespace Text

theorem gather_eq_nil_iff {run text : List Char} :
    gather run text = [] ↔ run = [] ∧ ∀ c ∈ text, isBlank c = true := by
  induction text generalizing run with
  | nil => cases run <;> simp [gather, closeRun]
  | cons c rest ih =>
    rw [gather]
    cases hc : isBlank c with
    | true => cases run <;> simp [closeRun, ih, hc]
    | false => simp [ih, hc]

theorem tokens_eq_nil_iff {text : String} :
    tokens text = [] ↔ ∀ c ∈ text.toList, isBlank c = true := by
  rw [tokens, List.map_eq_nil_iff, runs, gather_eq_nil_iff]
  simp

end Text

def Source.IsBlank (line : String) : Prop := ∀ c ∈ line.toList, Text.isBlank c = true

instance (line : String) : Decidable (Source.IsBlank line) :=
  decidable_of_iff (line.toList.all Text.isBlank = true) List.all_eq_true

namespace Statement

variable {mode : Mode} {number : Nat} {lines : List String} {statements : List Statement}

theorem ofLine_eq_ok_none_iff {line : String} :
    ofLine mode line = .ok none ↔ Source.IsBlank line := by
  rw [Source.IsBlank, ← Text.tokens_eq_nil_iff, ofLine]
  cases Text.tokens line with
  | nil => simp
  | cons name rest => cases h : ofTokens mode name rest <;> simp [Except.map, h]

-- ---------------------------------------------------------------------------
-- Lines
-- ---------------------------------------------------------------------------

/-- The statement on a line. Blank lines have none, and neither have lines in error. -/
def onLine? (mode : Mode) (line : String) : Option Statement :=
  match ofLine mode line with
  | .ok s => s
  | .error _ => none

/-- Source is accepted if each of its lines is, and then it has the statements
on them. -/
theorem ofLines_eq_ok_iff :
    ofLines mode number lines = .ok statements ↔
      (∀ line ∈ lines, ∃ s, ofLine mode line = .ok s) ∧
        statements = lines.filterMap (onLine? mode) := by
  induction lines generalizing number statements with
  | nil => simp [ofLines, eq_comm]
  | cons line lines ih =>
    rw [ofLines, List.forall_mem_cons]
    cases hl : ofLine mode line with
    | error cause => simp
    | ok s =>
      cases s with
      | none => simp [ih, onLine?, hl]
      | some s =>
        have here : onLine? mode line = some s := by simp [onLine?, hl]
        rw [List.filterMap_cons_some here]
        constructor
        · intro h
          cases hf : ofLines mode (number + 1) lines with
          | error e => simp [hf, Except.map] at h
          | ok found =>
            obtain ⟨rest, rfl⟩ := ih.1 hf
            rw [hf] at h
            cases h
            exact ⟨⟨⟨_, rfl⟩, rest⟩, rfl⟩
        · rintro ⟨⟨-, rest⟩, rfl⟩
          simp [ih.2 ⟨rest, rfl⟩, Except.map]

theorem ofLines_append (mode : Mode) (number : Nat) (first second : List String) :
    ofLines mode number (first ++ second) =
      match ofLines mode number first with
      | .error e => .error e
      | .ok statements =>
        (ofLines mode (number + first.length) second).map (statements ++ ·) := by
  induction first generalizing number with
  | nil =>
    rw [List.nil_append, List.length_nil, Nat.add_zero, ofLines]
    cases ofLines mode number second <;> rfl
  | cons line first ih =>
    have hnumber : number + (line :: first).length = number + 1 + first.length := by
      rw [List.length_cons]
      omega
    rw [List.cons_append, ofLines, ofLines, hnumber]
    cases ofLine mode line with
    | error cause => rfl
    | ok s =>
      cases s with
      | none => exact ih (number + 1)
      | some s =>
        simp only [ih]
        cases ofLines mode (number + 1) first with
        | error e => rfl
        | ok found => cases ofLines mode (number + 1 + first.length) second <;> rfl

theorem closedBy_eq_ok_iff {s t : Statement} {rest : List String} :
    closedBy s rest = .ok t ↔ rest = [] ∧ t = s := by
  cases rest <;> simp [closedBy, eq_comm]

theorem ofTokens_strict {name : String} {rest : List String} {s : Statement}
    (h : ofTokens .strict name rest = .ok s) : ∃ i, s = .instr i := by
  unfold ofTokens at h
  split at h
  · exact ⟨_, (closedBy_eq_ok_iff.1 h).2⟩
  · split at h
    · cases h
    · split at h
      · exact ⟨_, (closedBy_eq_ok_iff.1 h).2⟩
      · cases h
  · next hm => cases hm
  · cases h

theorem onLine?_strict {line : String} {s : Statement} (h : onLine? .strict line = some s) :
    ∃ i, s = .instr i := by
  unfold onLine? ofLine at h
  cases ht : Text.tokens line with
  | nil => simp [ht] at h
  | cons name rest =>
    cases hs : ofTokens .strict name rest with
    | error cause => simp [ht, hs, Except.map] at h
    | ok found =>
      have same : found = s := by simpa [ht, hs, Except.map] using h
      exact same ▸ ofTokens_strict hs

-- ---------------------------------------------------------------------------
-- Places
-- ---------------------------------------------------------------------------

def item : Statement → Item
  | .instr i => .instr i
  | .unknown => .unknown Opcode.unmapped

@[simp] theorem size_item (s : Statement) : s.item.size = s.size := by cases s <;> rfl

theorem sweep_words_append (s : Statement) (rest : List Word) (index : Nat) :
    Line.sweep index (s.words ++ rest) = ⟨index, s.item⟩ :: Line.sweep (index + s.size) rest := by
  rcases s with (op | ⟨op, value⟩) | _
  · have hitem : Item.read op.code rest.head? = .instr (.plain op) := by simp [Item.read]
    show Line.sweep index (op.code :: rest) = _
    rw [Line.sweep_cons, hitem]
    rfl
  · have hitem : Item.read op.code (value :: rest).head? = .instr (.operand op value) := by
      simp [Item.read]
    show Line.sweep index (op.code :: value :: rest) = _
    rw [Line.sweep_cons, hitem]
    rfl
  · have hitem : Item.read Opcode.unmapped rest.head? = .unknown Opcode.unmapped := by
      simp [Item.read, Opcode.ofWord?_unmapped]
    show Line.sweep index (Opcode.unmapped :: rest) = _
    rw [Line.sweep_cons, hitem]
    rfl

theorem items_sweep (statements : List Statement) (index : Nat) :
    (Line.sweep index (statements.flatMap words)).map (·.item) = statements.map item := by
  induction statements generalizing index with
  | nil => rfl
  | cons s rest ih => rw [List.flatMap_cons, sweep_words_append, List.map_cons, ih, List.map_cons]

end Statement

namespace Program

theorem isEmpty_ofStatements_iff {statements : List Statement} :
    (ofStatements statements).isEmpty = true ↔ statements = [] := by
  cases statements with
  | nil => simp [ofStatements, ofList, isEmpty]
  | cons s rest =>
    have hsize : 0 < s.words.length := by
      rw [Statement.length_words, ← Statement.size_item]
      exact s.item.size_pos
    rw [isEmpty_iff_size, ofStatements, size_ofList, List.flatMap_cons, List.length_append]
    exact ⟨fun h => by omega, fun h => by cases h⟩

theorem assemble_eq_ok_iff {mode : Mode} {lines : List String} {p : Program} :
    assemble mode lines = .ok p ↔
      (∀ line ∈ lines, ∃ s, Statement.ofLine mode line = .ok s) ∧
        p = ofStatements (lines.filterMap (Statement.onLine? mode)) := by
  rw [assemble]
  constructor
  · intro h
    cases hs : Statement.ofLines mode 1 lines with
    | error e => simp [hs, Except.map] at h
    | ok statements =>
      obtain ⟨accepted, rfl⟩ := Statement.ofLines_eq_ok_iff.1 hs
      rw [hs] at h
      cases h
      exact ⟨accepted, rfl⟩
  · rintro ⟨accepted, rfl⟩
    rw [Statement.ofLines_eq_ok_iff.2 ⟨accepted, rfl⟩]
    rfl

theorem eq_of_assemble {mode : Mode} {lines : List String} {p : Program}
    (h : assemble mode lines = .ok p) :
    p = ofStatements (lines.filterMap (Statement.onLine? mode)) :=
  (assemble_eq_ok_iff.1 h).2

/-- The listing of assembled source has one line for each statement. -/
theorem items_lines_ofStatements (statements : List Statement) :
    (ofStatements statements).lines.map (·.item) = statements.map Statement.item :=
  Statement.items_sweep statements 0

theorem sum_size_of_items {lines : List Line} {statements : List Statement}
    (h : lines.map (·.item) = statements.map Statement.item) :
    (lines.map (·.item.size)).sum = (statements.map Statement.size).sum := by
  have hsizes := congrArg (List.map Item.size) h
  rw [List.map_map, List.map_map] at hsizes
  simpa [Function.comp_def] using congrArg List.sum hsizes

theorem lines_ofStatements (before : List Statement) (s : Statement) (after : List Statement) :
    ∃ linesBefore linesAfter, (ofStatements (before ++ s :: after)).lines =
        linesBefore ++ ⟨(before.map Statement.size).sum, s.item⟩ :: linesAfter ∧
      linesBefore.length = before.length := by
  have hitems := items_lines_ofStatements (before ++ s :: after)
  rw [List.map_append, List.map_cons, List.map_eq_append_iff] at hitems
  obtain ⟨linesBefore, linesFrom, hsplit, hbefore, hfrom⟩ := hitems
  obtain ⟨line, linesAfter, rfl, hline, -⟩ := List.map_eq_cons_iff.1 hfrom
  have hindex : line.index = (before.map Statement.size).sum := by
    rw [index_of_lines hsplit, sum_size_of_items hbefore]
  refine ⟨linesBefore, linesAfter, ?_, by simpa using congrArg List.length hbefore⟩
  rw [hsplit, ← hindex, ← hline]

theorem mem_lines_ofStatements {before after : List Statement} {s : Statement} :
    ⟨(before.map Statement.size).sum, s.item⟩ ∈ (ofStatements (before ++ s :: after)).lines := by
  obtain ⟨linesBefore, linesAfter, hsplit, -⟩ := lines_ofStatements before s after
  simp [hsplit]

theorem exists_of_mem_lines_ofStatements {statements : List Statement} {line : Line}
    (h : line ∈ (ofStatements statements).lines) :
    ∃ (before : List Statement) (s : Statement) (after : List Statement),
      statements = before ++ s :: after ∧ line.item = s.item ∧
      line.index = (before.map Statement.size).sum := by
  obtain ⟨linesBefore, linesAfter, hsplit⟩ := List.append_of_mem h
  have hitems := items_lines_ofStatements statements
  rw [hsplit, List.map_append, List.map_cons] at hitems
  obtain ⟨before, rest, rfl, hbefore, hrest⟩ := List.map_eq_append_iff.1 hitems.symm
  obtain ⟨s, after, rfl, hs, -⟩ := List.map_eq_cons_iff.1 hrest
  refine ⟨before, s, after, rfl, hs.symm, ?_⟩
  rw [index_of_lines hsplit, sum_size_of_items hbefore.symm]

end Program

end StackMachine
