import StackMachine.State
import StackMachine.Proofs.SourceLines

/-!
# Sources put together

The program of two sources one after the other is their programs one after the
other. The first error is reported as it would be without the other source, but
for the number of its line, which counts all lines before it (`assemble_append`).
Blank lines count and do nothing else.
-/

namespace StackMachine

open Source (IsBlank)

-- ---------------------------------------------------------------------------
-- Line numbers
-- ---------------------------------------------------------------------------

def SourceError.shift (k : Nat) (e : SourceError) : SourceError := { e with line := k + e.line }

namespace Statement

variable {mode : Mode} {number : Nat} {lines : List String}

theorem ofLines_add (mode : Mode) (k number : Nat) (lines : List String) :
    ofLines mode (k + number) lines = (ofLines mode number lines).mapError (·.shift k) := by
  induction lines generalizing number with
  | nil => rfl
  | cons line lines ih =>
    rw [ofLines, ofLines]
    cases ofLine mode line with
    | error cause => rfl
    | ok s =>
      cases s with
      | none => exact ih (number + 1)
      | some s =>
        simp only [Nat.add_assoc, ih]
        cases ofLines mode (number + 1) lines <;> rfl

theorem line_of_ofLines {e : SourceError} (h : ofLines mode number lines = .error e) :
    number ≤ e.line ∧ e.line < number + lines.length := by
  induction lines generalizing number with
  | nil => cases h
  | cons line lines ih =>
    rw [List.length_cons]
    rw [ofLines] at h
    cases hl : ofLine mode line with
    | error cause =>
      rw [hl] at h
      cases h
      exact ⟨Nat.le_refl _, by simp⟩
    | ok s =>
      rw [hl] at h
      have rest : ofLines mode (number + 1) lines = .error e := by
        cases s with
        | none => exact h
        | some s => cases hr : ofLines mode (number + 1) lines <;> simp_all [Except.map]
      have := ih rest
      omega

end Statement

namespace Program

variable {mode : Mode} {lines : List String}

theorem ofStatements_append (first second : List Statement) :
    ofStatements (first ++ second) =
      .ofList ((ofStatements first).words.toList ++ (ofStatements second).words.toList) := by
  simp [ofStatements]

-- ---------------------------------------------------------------------------
-- Two sources
-- ---------------------------------------------------------------------------

theorem assemble_append (mode : Mode) (first second : List String) :
    assemble mode (first ++ second) =
      match assemble mode first, assemble mode second with
      | .error e, _ => .error e
      | .ok _, .error e => .error ⟨first.length + e.line, e.cause⟩
      | .ok p, .ok q => .ok (.ofList (p.words.toList ++ q.words.toList)) := by
  rw [assemble, assemble, assemble, Statement.ofLines_append, Nat.add_comm,
    Statement.ofLines_add]
  cases Statement.ofLines mode 1 first with
  | error e => rfl
  | ok statements =>
    cases Statement.ofLines mode 1 second with
    | error e => rfl
    | ok more => exact congrArg Except.ok (ofStatements_append statements more)

-- ---------------------------------------------------------------------------
-- Blank lines
-- ---------------------------------------------------------------------------

theorem assemble_blank_cons {blank : String} (h : IsBlank blank) (lines : List String) :
    assemble mode (blank :: lines) = (assemble mode lines).mapError (·.shift 1) := by
  rw [assemble, assemble, Statement.ofLines, Statement.ofLine_eq_ok_none_iff.2 h,
    Statement.ofLines_add]
  cases Statement.ofLines mode 1 lines <;> rfl

theorem line_of_assemble {e : SourceError} (h : assemble mode lines = .error e) :
    1 ≤ e.line ∧ e.line ≤ lines.length := by
  rw [assemble] at h
  cases hs : Statement.ofLines mode 1 lines with
  | ok statements => simp [hs, Except.map] at h
  | error found =>
    rw [hs] at h
    cases h
    have := Statement.line_of_ofLines hs
    omega

theorem assemble_insert_blank {blank : String} (h : IsBlank blank) (before after : List String) :
    assemble mode (before ++ blank :: after) =
      (assemble mode (before ++ after)).mapError fun e =>
        if e.line ≤ before.length then e else ⟨e.line + 1, e.cause⟩ := by
  rw [assemble_append, assemble_append, assemble_blank_cons h]
  cases hb : assemble mode before with
  | error e =>
    have inside := (line_of_assemble hb).2
    simp [Except.mapError, inside]
  | ok p =>
    cases ha : assemble mode after with
    | ok q => rfl
    | error e =>
      have behind := (line_of_assemble ha).1
      have later : ¬ before.length + e.line ≤ before.length := by omega
      simp only [Except.mapError, SourceError.shift, if_neg later]
      rw [Nat.add_comm 1, Nat.add_assoc]

-- ---------------------------------------------------------------------------
-- Empty programs
-- ---------------------------------------------------------------------------

theorem assemble_empty_iff :
    (∃ p, assemble mode lines = .ok p ∧ p.isEmpty = true) ↔ ∀ line ∈ lines, IsBlank line := by
  constructor
  · rintro ⟨p, assembled, empty⟩ line hl
    obtain ⟨accepted, rfl⟩ := assemble_eq_ok_iff.1 assembled
    rw [isEmpty_ofStatements_iff, List.filterMap_eq_nil_iff] at empty
    obtain ⟨s, hs⟩ := accepted line hl
    have nothing : s = none := by simpa [Statement.onLine?, hs] using empty line hl
    exact Statement.ofLine_eq_ok_none_iff.1 (nothing ▸ hs)
  · intro blank
    have nothing : ∀ line ∈ lines, Statement.ofLine mode line = .ok none :=
      fun line hl => Statement.ofLine_eq_ok_none_iff.2 (blank line hl)
    refine ⟨_, assemble_eq_ok_iff.2 ⟨fun line hl => ⟨none, nothing line hl⟩, rfl⟩, ?_⟩
    rw [isEmpty_ofStatements_iff, List.filterMap_eq_nil_iff]
    intro line hl
    simp [Statement.onLine?, nothing line hl]

theorem isHalted_initial (p : Program) : (State.initial p).isHalted = p.isEmpty := by
  cases h : p.isEmpty <;> simp [State.initial, State.isHalted, h]

/-- Assembling respects concatenation, with errors where they are found first;
blank lines only move errors; and nothing but blank lines makes a program that
has halted from the start. -/
theorem assemble_homomorphism (mode : Mode) :
    (∀ first second, assemble mode (first ++ second) =
      match assemble mode first, assemble mode second with
      | .error e, _ => .error e
      | .ok _, .error e => .error ⟨first.length + e.line, e.cause⟩
      | .ok p, .ok q => .ok (.ofList (p.words.toList ++ q.words.toList))) ∧
    (∀ before blank after, IsBlank blank →
      assemble mode (before ++ blank :: after) =
        (assemble mode (before ++ after)).mapError fun e =>
          if e.line ≤ before.length then e else ⟨e.line + 1, e.cause⟩) ∧
    (∀ lines, ((∃ p, assemble mode lines = .ok p ∧ p.isEmpty = true) ↔
        ∀ line ∈ lines, IsBlank line) ∧
      ((∃ p, assemble mode lines = .ok p ∧ (State.initial p).isHalted = true) ↔
        ∀ line ∈ lines, IsBlank line)) := by
  refine ⟨assemble_append mode, fun before _ after h => assemble_insert_blank h before after, ?_⟩
  intro lines
  refine ⟨assemble_empty_iff, ?_⟩
  simp only [isHalted_initial]
  exact assemble_empty_iff

theorem blank_moves_error :
    IsBlank "\t\u3000" ∧
      assemble .strict (["PUSH 1"] ++ "\t\u3000" :: ["DUP", "STOP 3"]) =
        .error ⟨4, .unknownMnemonic "STOP"⟩ := by
  have blank : IsBlank "\t\u3000" := by decide
  refine ⟨blank, ?_⟩
  rw [(assemble_homomorphism .strict).2.1 ["PUSH 1"] "\t\u3000" ["DUP", "STOP 3"] blank]
  decide +kernel

end Program

end StackMachine
