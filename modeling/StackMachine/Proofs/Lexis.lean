import Mathlib
import StackMachine.Text.Decimal
import StackMachine.Text.Tokens

/-!
# Tokens and numerals

What the tokens of a text are and which texts are numbers, each said as a
relation: a text falls into its maximal runs of characters that are not blank
(`runs_eq_iff`), and a number is a sign at most and then digits, with the value
that these have by their places (`toInt?_eq_some_iff`).
-/

namespace StackMachine.Text

-- ---------------------------------------------------------------------------
-- Runs
-- ---------------------------------------------------------------------------

/-- The maximal runs of characters that are not blank, in their order: each
follows blanks, if anything, and lasts up to the next blank or the end. -/
inductive MaximalRuns : List Char → List (List Char) → Prop
  | blank {text : List Char} (blanks : ∀ c ∈ text, isBlank c = true) : MaximalRuns text []
  | run {lead run rest : List Char} {others : List (List Char)}
      (blanks : ∀ c ∈ lead, isBlank c = true) (nonempty : run ≠ [])
      (solid : ∀ c ∈ run, isBlank c = false) (ends : EndsRun rest)
      (further : MaximalRuns rest others) : MaximalRuns (lead ++ run ++ rest) (run :: others)

variable {text run lead : List Char} {others : List (List Char)}

theorem MaximalRuns.cons_blank {c : Char} (hc : isBlank c = true) (h : MaximalRuns text others) :
    MaximalRuns (c :: text) others := by
  cases h with
  | blank blanks => exact .blank (List.forall_mem_cons.2 ⟨hc, blanks⟩)
  | run blanks nonempty solid ends further =>
    exact .run (List.forall_mem_cons.2 ⟨hc, blanks⟩) nonempty solid ends further

theorem MaximalRuns.closeRun (solid : ∀ c ∈ run, isBlank c = false) (ends : EndsRun text)
    (h : MaximalRuns text others) : MaximalRuns (run.reverse ++ text) (closeRun run others) := by
  cases run with
  | nil => exact h
  | cons c run =>
    have noBlanks : ∀ c ∈ ([] : List Char), isBlank c = true := by simp
    exact .run noBlanks (by simp) (fun c hc => solid c (List.mem_reverse.1 hc)) ends h

theorem maximalRuns_gather (text run : List Char) (solid : ∀ c ∈ run, isBlank c = false) :
    MaximalRuns (run.reverse ++ text) (gather run text) := by
  induction text generalizing run with
  | nil => exact MaximalRuns.closeRun solid (by simp [EndsRun]) (.blank (by simp))
  | cons c rest ih =>
    rw [gather]
    cases hc : isBlank c with
    | true =>
      have others : MaximalRuns rest (gather [] rest) := ih [] (by simp)
      exact MaximalRuns.closeRun solid (by simp [EndsRun, hc]) (others.cons_blank hc)
    | false =>
      have longer := ih (c :: run) (List.forall_mem_cons.2 ⟨hc, solid⟩)
      simpa using longer

theorem runs_append_of_blank (blanks : ∀ c ∈ lead, isBlank c = true) (text : List Char) :
    runs (lead ++ text) = runs text := by
  induction lead with
  | nil => rfl
  | cons c lead ih =>
    obtain ⟨hc, blanks⟩ := List.forall_mem_cons.1 blanks
    rw [List.cons_append, runs_cons_of_isBlank hc, ih blanks]

theorem runs_eq_of_maximal (h : MaximalRuns text others) : runs text = others := by
  induction h with
  | blank blanks => simpa using runs_append_of_blank blanks []
  | run blanks nonempty solid ends _ ih =>
    rw [List.append_assoc, runs_append_of_blank blanks, runs_append nonempty solid ends, ih]

theorem runs_eq_iff : runs text = others ↔ MaximalRuns text others :=
  ⟨fun h => h ▸ maximalRuns_gather text [] (by simp), runs_eq_of_maximal⟩

-- ---------------------------------------------------------------------------
-- Numbers
-- ---------------------------------------------------------------------------

namespace Decimal

def IsDigits (text : List Char) : Prop := text ≠ [] ∧ ∀ c ∈ text, '0' ≤ c ∧ c ≤ '9'

def positional (digits : List Char) : Nat :=
  Nat.ofDigits 10 (digits.reverse.map fun c => c.toNat - '0'.toNat)

inductive Denotes : List Char → Int → Prop
  | unsigned {digits : List Char} (h : IsDigits digits) : Denotes digits (positional digits)
  | plus {digits : List Char} (h : IsDigits digits) : Denotes ('+' :: digits) (positional digits)
  | minus {digits : List Char} (h : IsDigits digits) :
      Denotes ('-' :: digits) (-positional digits)

theorem ofDigitChars_eq_positional (digits : List Char) :
    Nat.ofDigitChars 10 digits 0 = positional digits := by
  rw [Nat.ofDigitChars_eq_foldl, List.foldl_eq_foldr_reverse, positional, Nat.ofDigits_eq_foldr,
    List.foldr_map]
  simp [add_comm]

theorem isDigit_iff {c : Char} : c.isDigit = true ↔ '0' ≤ c ∧ c ≤ '9' := by
  simp [Char.isDigit, Char.le_def]

theorem toNat?_eq_some_iff {text : List Char} {n : Nat} :
    toNat? text = some n ↔ IsDigits text ∧ positional text = n := by
  simp [toNat?, IsDigits, isDigit_iff, ofDigitChars_eq_positional]

theorem toInt?_eq_some_iff {text : List Char} {i : Int} :
    toInt? text = some i ↔ Denotes text i := by
  constructor
  · intro h
    unfold toInt? at h
    split at h
    · obtain ⟨n, hn, rfl⟩ := Option.map_eq_some_iff.1 h
      obtain ⟨digits, rfl⟩ := toNat?_eq_some_iff.1 hn
      exact .plus digits
    · obtain ⟨n, hn, rfl⟩ := Option.map_eq_some_iff.1 h
      obtain ⟨digits, rfl⟩ := toNat?_eq_some_iff.1 hn
      exact .minus digits
    · obtain ⟨n, hn, rfl⟩ := Option.map_eq_some_iff.1 h
      obtain ⟨digits, rfl⟩ := toNat?_eq_some_iff.1 hn
      exact .unsigned digits
  · rintro (digits | digits | digits)
    · have value := toNat?_eq_some_iff.2 ⟨digits, rfl⟩
      obtain ⟨c, rest, rfl⟩ := List.exists_cons_of_ne_nil digits.1
      rw [toInt?_of_isDigit (isDigit_iff.2 (digits.2 c List.mem_cons_self)), value]
      rfl
    · simp [toInt?, toNat?_eq_some_iff.2 ⟨digits, rfl⟩]
    · simp [toInt?, toNat?_eq_some_iff.2 ⟨digits, rfl⟩]

end Decimal

end StackMachine.Text
