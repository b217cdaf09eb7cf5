import StackMachine.Proofs.ListingText
import StackMachine.Proofs.SourceLines

/-!
# Listings of source

The listing of a program that was assembled has a line for each line of the
source that is not blank, in the same order: at the address that the lines
before it add up to it shows the line again, with its number in plain form, or
the word that stands for a name that is no mnemonic (`listing_of_source`). What
the numbers are does not matter, also where they are codes of opcodes.
-/

namespace StackMachine

open Text

namespace Source

-- ---------------------------------------------------------------------------
-- One line
-- ---------------------------------------------------------------------------

def width (line : String) : Nat :=
  match tokens line with
  | [] => 0
  | name :: _ =>
    match Opcode.ofMnemonic? name with
    | some (.operand _) => 2
    | some (.plain _) | none => 1

def offset (lines : List String) : Nat := (lines.map width).sum

/-- What a listing shows of a line of lenient source. -/
inductive Shows (line : String) : String → Prop
  | plain {name : String} {op : PlainOp} (tokens : tokens line = [name])
      (known : Opcode.ofMnemonic? name = some (.plain op)) : Shows line name
  | operand {name arg : String} {op : OperandOp} {i : Int} (tokens : tokens line = [name, arg])
      (known : Opcode.ofMnemonic? name = some (.operand op))
      (number : Decimal.toInt? arg.toList = some i) :
      Shows line (name ++ " " ++ String.ofList (Decimal.ofInt i))
  | unknown {name : String} (tokens : tokens line = [name])
      (unknown : Opcode.ofMnemonic? name = none) : Shows line "?? -1"

end Source

open Source

theorem Word.toDecimal_of_ofDecimal? {text : String} {w : Word} (h : ofDecimal? text = some w) :
    ∃ i, Decimal.toInt? text.toList = some i ∧ w.toDecimal = String.ofList (Decimal.ofInt i) := by
  obtain ⟨i, hi, hw⟩ := Option.bind_eq_some_iff.1 h
  rw [Word.ofInt?_eq_some_iff] at hw
  exact ⟨i, hi, by rw [toDecimal, hw]⟩

namespace Statement

variable {line : String} {s : Statement}

theorem of_ofTokens_lenient {name : String} {rest : List String}
    (h : ofTokens .lenient name rest = .ok s) :
    (∃ op, Opcode.ofMnemonic? name = some (.plain op) ∧ rest = [] ∧ s = .instr (.plain op)) ∨
      (∃ op arg value, Opcode.ofMnemonic? name = some (.operand op) ∧ rest = [arg] ∧
        Word.ofDecimal? arg = some value ∧ s = .instr (.operand op value)) ∨
      Opcode.ofMnemonic? name = none ∧ rest = [] ∧ s = .unknown := by
  unfold ofTokens at h
  split at h
  · next _ op known =>
    obtain ⟨hrest, hs⟩ := closedBy_eq_ok_iff.1 h
    exact .inl ⟨op, known, hrest, hs⟩
  · next _ op known =>
    split at h
    · cases h
    · next arg rest =>
      split at h
      · next value hvalue =>
        obtain ⟨rfl, hs⟩ := closedBy_eq_ok_iff.1 h
        exact .inr (.inl ⟨op, arg, value, known, rfl, hvalue, hs⟩)
      · cases h
  · next unknown _ =>
    obtain ⟨hrest, hs⟩ := closedBy_eq_ok_iff.1 h
    exact .inr (.inr ⟨unknown, hrest, hs⟩)
  · next hm => cases hm

theorem shows_of_ofLine (h : ofLine .lenient line = .ok (some s)) :
    s.size = width line ∧ Shows line s.item.text := by
  rw [ofLine] at h
  cases ht : tokens line with
  | nil => simp [ht] at h
  | cons name rest =>
    have hs : ofTokens .lenient name rest = .ok s := by
      rw [ht] at h
      cases hs : ofTokens .lenient name rest <;> simp_all [Except.map]
    rw [width, ht]
    dsimp only
    rcases of_ofTokens_lenient hs with ⟨op, known, rfl, rfl⟩ |
      ⟨op, arg, value, known, rfl, hvalue, rfl⟩ | ⟨unknown, rfl, rfl⟩
    · obtain rfl := Opcode.ofMnemonic?_eq_some_iff.1 known
      rw [known]
      exact ⟨rfl, .plain ht known⟩
    · obtain rfl := Opcode.ofMnemonic?_eq_some_iff.1 known
      obtain ⟨i, hi, hdecimal⟩ := Word.toDecimal_of_ofDecimal? hvalue
      rw [known, item, Item.text, hdecimal]
      exact ⟨rfl, .operand ht known hi⟩
    · rw [unknown]
      exact ⟨rfl, .unknown ht unknown⟩

theorem bracket_not_mem_text (s : Statement) : '<' ∉ s.item.text.toList := by
  intro h
  cases s with
  | instr i => exact absurd (Item.text_of_instr i h) (by decide)
  | unknown => exact absurd h (by decide)

-- ---------------------------------------------------------------------------
-- All lines
-- ---------------------------------------------------------------------------

theorem onLine?_eq_some_of_not_blank (accepted : ∃ s, ofLine .lenient line = .ok s)
    (h : ¬ IsBlank line) : ∃ s, onLine? .lenient line = some s ∧
      ofLine .lenient line = .ok (some s) := by
  obtain ⟨_ | s, hs⟩ := accepted
  · exact absurd (ofLine_eq_ok_none_iff.1 hs) h
  · exact ⟨s, by simp [onLine?, hs], hs⟩

theorem onLine?_eq_none_of_blank {mode : Mode} (h : IsBlank line) : onLine? mode line = none := by
  simp [onLine?, ofLine_eq_ok_none_iff.2 h]

theorem width_eq_zero (h : IsBlank line) : width line = 0 := by
  rw [width, tokens_eq_nil_iff.2 h]

theorem count_onLine {lines : List String}
    (accepted : ∀ line ∈ lines, ∃ s, ofLine .lenient line = .ok s) :
    (lines.filterMap (onLine? .lenient)).length = (lines.filter (¬ IsBlank ·)).length ∧
      ((lines.filterMap (onLine? .lenient)).map size).sum = offset lines := by
  induction lines with
  | nil => exact ⟨rfl, rfl⟩
  | cons line lines ih =>
    obtain ⟨here, rest⟩ := List.forall_mem_cons.1 accepted
    obtain ⟨hcount, hsum⟩ := ih rest
    by_cases blank : IsBlank line
    · rw [List.filterMap_cons_none (onLine?_eq_none_of_blank blank),
        List.filter_cons_of_neg (by simpa using blank), offset, List.map_cons, List.sum_cons,
        width_eq_zero blank, Nat.zero_add]
      exact ⟨hcount, hsum⟩
    · obtain ⟨s, hs, hline⟩ := onLine?_eq_some_of_not_blank here blank
      rw [List.filterMap_cons_some hs, List.filter_cons_of_pos (by simpa using blank), offset,
        List.map_cons, List.map_cons, List.sum_cons, List.sum_cons, (shows_of_ofLine hline).1, hsum]
      exact ⟨congrArg (· + 1) hcount, rfl⟩

end Statement

namespace Program

variable {lines : List String} {p : Program}

open Statement

theorem not_missing_of_mem_lines {statements : List Statement} {line : Line} (mark : Option Word)
    (h : line ∈ (ofStatements statements).lines) :
    ¬ "<missing>".toList <:+: (line.text mark).toList := by
  obtain ⟨_, s, _, -, hitem, -⟩ := exists_of_mem_lines_ofStatements h
  have digits : '<' ∉ Decimal.padded 4 (Decimal.ofNat line.index) :=
    fun hc => absurd (Line.isDigit_of_mem_padded hc) (by decide)
  have item := s.bracket_not_mem_text
  intro shown
  have hc : '<' ∈ (line.text mark).toList := shown.subset (by decide)
  rw [Line.toList_text, hitem] at hc
  split at hc <;> simp [digits, item] at hc

/-- The listing of assembled source, line by line: it has as many lines as the
source has lines that are not blank, the line of each shows it at the address
that the widths of those before it add up to, and no operand is missing. -/
theorem listing_of_source (assembled : assemble .lenient lines = .ok p) (mark : Option Word) :
    (Text.lines (p.listing mark)).length = (lines.filter (¬ IsBlank ·)).length ∧
    (∀ before line after, lines = before ++ line :: after → ¬ IsBlank line →
      ∃ text, Shows line text ∧
        (Text.lines (p.listing mark))[(before.filter (¬ IsBlank ·)).length]? =
          some ((if mark.bind Word.index? = some (offset before) then ">" else " ") ++ " [" ++
            String.ofList (Decimal.padded 4 (Decimal.ofNat (offset before))) ++ "] " ++ text)) ∧
    ∀ shown ∈ Text.lines (p.listing mark), ¬ "<missing>".toList <:+: shown.toList := by
  obtain ⟨accepted, rfl⟩ := assemble_eq_ok_iff.1 assembled
  rw [lines_listing, List.length_map]
  refine ⟨?_, ?_, ?_⟩
  · have hitems := congrArg List.length
      (items_lines_ofStatements (lines.filterMap (onLine? .lenient)))
    rw [List.length_map, List.length_map] at hitems
    rw [hitems, (count_onLine accepted).1]
  · rintro before line after rfl hline
    obtain ⟨s, hs, hofLine⟩ := onLine?_eq_some_of_not_blank (accepted line (by simp)) hline
    have acceptedBefore : ∀ other ∈ before, ∃ s, ofLine .lenient other = .ok s :=
      fun other ho => accepted other (List.mem_append_left _ ho)
    obtain ⟨hcount, hsum⟩ := count_onLine acceptedBefore
    obtain ⟨linesBefore, linesAfter, hsplit, hlength⟩ := lines_ofStatements
      (before.filterMap (onLine? .lenient)) s (after.filterMap (onLine? .lenient))
    refine ⟨s.item.text, (shows_of_ofLine hofLine).2, ?_⟩
    rw [List.filterMap_append, List.filterMap_cons_some hs, hsplit, List.map_append, List.map_cons,
      ← hcount, ← hlength, hsum, List.getElem?_append_right (by simp)]
    simp [Line.text, Line.isMarked]
  · intro shown hshown
    obtain ⟨line, hl, rfl⟩ := List.mem_map.1 hshown
    exact not_missing_of_mem_lines mark hl

theorem plainNumbers_listed :
    assemble .lenient ["PUSH +018", "", "FOO", "JMP -0"] = .ok (.ofList [1, 18, -1, 14, 0]) ∧
      (Text.lines ((ofList [1, 18, -1, 14, 0]).listing (some 3)))[2]? = some "> [0003] JMP 0" := by
  have assembled : assemble .lenient ["PUSH +018", "", "FOO", "JMP -0"] =
      .ok (.ofList [1, 18, -1, 14, 0]) := by decide +kernel
  refine ⟨assembled, ?_⟩
  obtain ⟨-, shown, -⟩ := listing_of_source assembled (some 3)
  obtain ⟨text, shows, hline⟩ := shown ["PUSH +018", "", "FOO"] "JMP -0" [] rfl (by decide)
  have htokens : tokens "JMP -0" = ["JMP", "-0"] := by decide
  cases shows with
  | plain single => cases htokens.symm.trans single
  | unknown single => cases htokens.symm.trans single
  | operand both _ number =>
    cases htokens.symm.trans both
    cases number
    exact hline.trans (by decide +kernel)

end Program

end StackMachine
