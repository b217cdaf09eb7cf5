import StackMachine.Proofs.LineGrammar

/-!
# Strict and lenient source

The modes differ in what becomes of names that are no mnemonics and in nothing
else (`assemble_strict_eq`). In front of the first such name they report the
same errors. There strict source is refused, whatever follows the name or comes
behind its line, while lenient source goes on and never reports a name.
-/

namespace StackMachine

open Text

namespace Source

def StartsUnknown (line name : String) : Prop :=
  (tokens line).head? = some name ∧ Opcode.IsUnknown name

def AllKnown (lines : List String) : Prop := ∀ line ∈ lines, ∀ name, ¬ StartsUnknown line name

/-- The first line to start with a name that is no mnemonic, by its number. -/
def FirstUnknown (lines : List String) (number : Nat) (name : String) : Prop :=
  ∃ before line after, lines = before ++ line :: after ∧ number = before.length + 1 ∧
    AllKnown before ∧ StartsUnknown line name

theorem allKnown_or_first (lines : List String) :
    AllKnown lines ∨ ∃ number name, FirstUnknown lines number name := by
  induction lines with
  | nil => exact .inl (by simp [AllKnown])
  | cons line lines ih =>
    by_cases here : ∃ name, StartsUnknown line name
    · obtain ⟨name, unknown⟩ := here
      exact .inr ⟨1, name, [], line, lines, rfl, rfl, by simp [AllKnown], unknown⟩
    · have known : ∀ name, ¬ StartsUnknown line name := not_exists.1 here
      rcases ih with rest | ⟨_, name, before, first, after, rfl, rfl, rest, unknown⟩
      · exact .inl (List.forall_mem_cons.2 ⟨known, rest⟩)
      · exact .inr ⟨_, name, line :: before, first, after, rfl, rfl,
          List.forall_mem_cons.2 ⟨known, rest⟩, unknown⟩

end Source

open Source

namespace Statement

variable {mode : Mode} {line name : String} {lines : List String}

-- ---------------------------------------------------------------------------
-- One line
-- ---------------------------------------------------------------------------

theorem ofTokens_of_known (known : ¬ Opcode.IsUnknown name) (rest : List String) :
    ofTokens .strict name rest = ofTokens .lenient name rest := by
  obtain ⟨op, rfl⟩ : ∃ op : Opcode, name = op.mnemonic := by
    simpa [Opcode.IsUnknown] using known
  cases op <;> simp [ofTokens]

theorem ofLine_of_known (known : ∀ name, ¬ StartsUnknown line name) :
    ofLine .strict line = ofLine .lenient line := by
  unfold ofLine
  cases ht : tokens line with
  | nil => rfl
  | cons name rest =>
    have first : ¬ Opcode.IsUnknown name := fun unknown => known name ⟨by simp [ht], unknown⟩
    simp only [ofTokens_of_known first]

theorem ofLine_strict_of_unknown (unknown : StartsUnknown line name) :
    ofLine .strict line = .error (.unknownMnemonic name) := by
  obtain ⟨hfirst, hname⟩ := unknown
  obtain ⟨rest, ht⟩ := List.head?_eq_some_iff.1 hfirst
  simp [ofLine, ht, ofTokens, Opcode.ofMnemonic?_eq_none_iff.2 hname, Except.map]

theorem ofTokens_lenient_ne (name other : String) (rest : List String) :
    ofTokens .lenient name rest ≠ .error (.unknownMnemonic other) := by
  have closed : ∀ s rest, closedBy s rest ≠ .error (.unknownMnemonic other) := by
    intro s rest
    cases rest <;> simp [closedBy]
  unfold ofTokens
  split
  · exact closed _ rest
  · split
    · simp
    · split
      · exact closed _ _
      · simp
  · exact closed _ rest
  · contradiction

theorem ofLine_lenient_ne (line name : String) :
    ofLine .lenient line ≠ .error (.unknownMnemonic name) := by
  unfold ofLine
  cases tokens line with
  | nil => simp
  | cons first rest =>
    intro h
    cases hs : ofTokens .lenient first rest with
    | ok s => simp [hs, Except.map] at h
    | error cause =>
      obtain rfl : cause = .unknownMnemonic name := by simpa [hs, Except.map] using h
      exact ofTokens_lenient_ne first name rest hs

-- ---------------------------------------------------------------------------
-- All lines
-- ---------------------------------------------------------------------------

theorem ofLines_of_known (known : AllKnown lines) (number : Nat) :
    ofLines .strict number lines = ofLines .lenient number lines := by
  induction lines generalizing number with
  | nil => rfl
  | cons line lines ih =>
    obtain ⟨here, rest⟩ := List.forall_mem_cons.1 known
    simp only [ofLines, ofLine_of_known here, ih rest]

theorem exists_line_of_ofLines {number : Nat} {e : SourceError}
    (h : ofLines mode number lines = .error e) :
    ∃ line ∈ lines, ofLine mode line = .error e.cause := by
  induction lines generalizing number with
  | nil => cases h
  | cons line lines ih =>
    rw [ofLines] at h
    rw [List.exists_mem_cons_iff]
    cases hl : ofLine mode line with
    | error cause =>
      rw [hl] at h
      cases h
      exact .inl rfl
    | ok s =>
      rw [hl] at h
      have rest : ofLines mode (number + 1) lines = .error e := by
        cases s with
        | none => exact h
        | some s => cases hr : ofLines mode (number + 1) lines <;> simp_all [Except.map]
      exact .inr (ih rest)

end Statement

namespace Program

open Statement

variable {lines : List String} {name : String} {number : Nat} {e : SourceError}

theorem assemble_of_known (known : AllKnown lines) :
    assemble .strict lines = assemble .lenient lines := by
  rw [assemble, ofLines_of_known known, assemble]

theorem cause_of_assemble_lenient (h : assemble .lenient lines = .error e) :
    e.cause ≠ .unknownMnemonic name := by
  intro named
  rw [assemble] at h
  cases hs : ofLines .lenient 1 lines with
  | ok statements => simp [hs, Except.map] at h
  | error found =>
    obtain rfl : found = e := by simpa [hs, Except.map] using h
    obtain ⟨line, -, wrong⟩ := exists_line_of_ofLines hs
    exact ofLine_lenient_ne line name (named ▸ wrong)

theorem assemble_strict_cons_of_unknown {line : String} (unknown : StartsUnknown line name)
    (after : List String) :
    assemble .strict (line :: after) = .error ⟨1, .unknownMnemonic name⟩ := by
  simp [assemble, ofLines, ofLine_strict_of_unknown unknown, Except.map]

theorem assemble_strict_of_first (first : FirstUnknown lines number name) :
    assemble .strict lines =
      match assemble .lenient lines with
      | .ok _ => .error ⟨number, .unknownMnemonic name⟩
      | .error e =>
        if e.line < number then .error e else .error ⟨number, .unknownMnemonic name⟩ := by
  obtain ⟨before, line, after, rfl, rfl, known, unknown⟩ := first
  -- both modes agree on the lines before; the line itself is as far as strict source gets
  rw [assemble_append, assemble_append, assemble_of_known known,
    assemble_strict_cons_of_unknown unknown]
  cases hb : assemble .lenient before with
  | error e =>
    have inside := (line_of_assemble hb).2
    have earlier : e.line < before.length + 1 := by omega
    simp [earlier]
  | ok p =>
    cases ha : assemble .lenient (line :: after) with
    | ok q => rfl
    | error e =>
      have behind := (line_of_assemble ha).1
      have later : ¬ before.length + e.line < before.length + 1 := by omega
      simp [later]

/-- Source in which all names are mnemonics is assembled alike in both modes.
Otherwise strict source is refused at the first other name, unless a line
before it is in error. Lenient source is not refused for a name. -/
theorem assemble_strict_eq (lines : List String) :
    (AllKnown lines ∨ ∃ number name, FirstUnknown lines number name) ∧
    (AllKnown lines → assemble .strict lines = assemble .lenient lines) ∧
    (∀ number name, FirstUnknown lines number name →
      assemble .strict lines =
        match assemble .lenient lines with
        | .ok _ => .error ⟨number, .unknownMnemonic name⟩
        | .error e =>
          if e.line < number then .error e else .error ⟨number, .unknownMnemonic name⟩) ∧
    ∀ e name, assemble .lenient lines = .error e → e.cause ≠ .unknownMnemonic name :=
  ⟨allKnown_or_first lines, assemble_of_known, fun _ _ => assemble_strict_of_first,
    fun _ _ => cause_of_assemble_lenient⟩

theorem stop_refused :
    AllKnown ["DUP", ""] ∧ assemble .strict ["DUP", ""] = assemble .lenient ["DUP", ""] ∧
      FirstUnknown ["DUP", "", "STOP 3", "PUSH"] 3 "STOP" ∧
      assemble .lenient ["DUP", "", "STOP 3", "PUSH"] = .error ⟨3, .unexpectedToken "3"⟩ ∧
      assemble .strict ["DUP", "", "STOP 3", "PUSH"] = .error ⟨3, .unknownMnemonic "STOP"⟩ := by
  have known : AllKnown ["DUP", ""] := by
    rintro line hl name ⟨hfirst, unknown⟩
    have dup : (tokens "DUP").head? = some "DUP" := by decide
    have blank : (tokens "").head? = none := by decide
    rcases List.mem_pair.1 hl with rfl | rfl
    · exact unknown (.plain .dup) (Option.some.inj (hfirst.symm.trans dup))
    · exact nomatch hfirst.symm.trans blank
  have unknown : StartsUnknown "STOP 3" "STOP" :=
    ⟨by decide, Opcode.ofMnemonic?_eq_none_iff.1 (by decide)⟩
  have first : FirstUnknown ["DUP", "", "STOP 3", "PUSH"] 3 "STOP" :=
    ⟨["DUP", ""], "STOP 3", ["PUSH"], rfl, rfl, known, unknown⟩
  have lenient : assemble .lenient ["DUP", "", "STOP 3", "PUSH"] =
      .error ⟨3, .unexpectedToken "3"⟩ := by decide +kernel
  obtain ⟨-, alike, -, -⟩ := assemble_strict_eq ["DUP", ""]
  obtain ⟨-, -, refused, -⟩ := assemble_strict_eq ["DUP", "", "STOP 3", "PUSH"]
  have strict := refused 3 "STOP" first
  rw [lenient] at strict
  exact ⟨known, alike known, first, lenient, strict⟩

end Program

end StackMachine
