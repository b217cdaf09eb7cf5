import StackMachine.Proofs.SourceLines

/-!
# Linked source does not fault at dispatch

Source is linked if its jumps and calls lead to statements and its last
statement does not hand control on. A run of linked source then stays at the
starts of its statements, and so do the addresses it will return to: every
state that is not halted is about to execute one of the statements in full
(`no_dispatch_fault`).
-/

namespace StackMachine

open Statement (onLine?)

namespace Source

def extent (lines : List String) : Nat :=
  ((lines.filterMap (onLine? .strict)).map Statement.size).sum

/-- Addresses in jumps and calls are written as numbers, so nothing else ties
them to the statements. -/
structure Linked (lines : List String) : Prop where
  targets : ∀ line ∈ lines, ∀ op value,
    onLine? .strict line = some (.instr (.operand op value)) → op.isTransfer = true →
    ∃ before target after, lines = before ++ target :: after ∧
      onLine? .strict target ≠ none ∧ value.toInt = extent before
  last : ∃ before line after i, lines = before ++ line :: after ∧
    onLine? .strict line = some (.instr i) ∧ (∀ blank ∈ after, onLine? .strict blank = none) ∧
    (i = .plain .halt ∨ i = .plain .ret ∨ ∃ value, i = .operand .jmp value)

end Source

open Source

variable {lines : List String} {p : Program}

namespace Program

-- ---------------------------------------------------------------------------
-- Boundaries of assembled source
-- ---------------------------------------------------------------------------

theorem isBoundary_of_line {before after : List String} {line : String} {addr : Word}
    (hp : p = ofStatements ((before ++ line :: after).filterMap (onLine? .strict)))
    (hline : onLine? .strict line ≠ none) (ha : addr.toInt = extent before) :
    p.IsBoundary addr := by
  obtain ⟨s, hs⟩ := Option.ne_none_iff_exists'.1 hline
  refine ⟨⟨extent before, s.item⟩, ?_, ha⟩
  rw [hp, List.filterMap_append, List.filterMap_cons_some hs]
  exact mem_lines_ofStatements

theorem line_of_isBoundary {addr : Word} (small : p.size < 2 ^ 60)
    (hp : p = ofStatements (lines.filterMap (onLine? .strict))) (h : p.IsBoundary addr) :
    ∃ before line after i, lines = before ++ line :: after ∧
      onLine? .strict line = some (.instr i) ∧ addr.toInt = extent before ∧
      p.item? addr = some (.instr i) := by
  obtain ⟨shown, hl, ha⟩ := h
  have hread := item?_of_mem_lines small hl ha
  rw [hp] at hl
  obtain ⟨before, s, after, hsplit, hitem, hindex⟩ := exists_of_mem_lines_ofStatements hl
  obtain ⟨linesBefore, linesFrom, rfl, rfl, hfrom⟩ := List.filterMap_eq_append_iff.1 hsplit
  obtain ⟨blanks, line, linesAfter, rfl, hblanks, hline, -⟩ := List.filterMap_eq_cons_iff.1 hfrom
  obtain ⟨i, rfl⟩ := Statement.onLine?_strict hline
  refine ⟨linesBefore ++ blanks, line, linesAfter, i, by simp, hline, ?_, hread.trans ?_⟩
  · rw [ha, hindex, extent, List.filterMap_append, List.filterMap_eq_nil_iff.2 hblanks,
      List.append_nil]
  · rw [hitem, Statement.item]

/-- The last line of the listing does not hand control on. -/
theorem last_of_linked (linked : Linked lines)
    (hp : p = ofStatements (lines.filterMap (onLine? .strict))) {i : Instr}
    (h : (p.lines.map (·.item)).getLast? = some (.instr i)) :
    i = .plain .halt ∨ i = .plain .ret ∨ ∃ value, i = .operand .jmp value := by
  obtain ⟨before, line, after, last, rfl, hline, hblank, hends⟩ := linked.last
  rw [hp, items_lines_ofStatements, List.filterMap_append, List.filterMap_cons_some hline,
    List.filterMap_eq_nil_iff.2 hblank] at h
  have same : last = i := by simpa [Statement.item] using h
  exact same ▸ hends

theorem isEmpty_of_linked (linked : Linked lines)
    (hp : p = ofStatements (lines.filterMap (onLine? .strict))) : p.isEmpty = false := by
  obtain ⟨before, line, after, last, rfl, hline, -, -⟩ := linked.last
  rw [← Bool.not_eq_true, hp, isEmpty_ofStatements_iff, List.filterMap_append,
    List.filterMap_cons_some hline]
  simp

theorem confines_of_linked (small : p.size < 2 ^ 60) (linked : Linked lines)
    (hp : p = ofStatements (lines.filterMap (onLine? .strict))) :
    State.Confines p p.IsBoundary p.IsBoundary where
  start := isBoundary_zero (isEmpty_of_linked linked hp)
  next := by
    intro addr i h hi falls
    rcases h.next small hi with h | ⟨-, hlast⟩
    · exact h
    · rcases last_of_linked linked hp hlast with rfl | rfl | ⟨value, rfl⟩ <;> cases falls
  target := by
    intro addr op value h hi transfer
    obtain ⟨before, line, after, i, hsplit, hline, -, hread⟩ := line_of_isBoundary small hp h
    have same : i = .operand op value := by simpa [hi] using hread.symm
    rw [same] at hline
    obtain ⟨_, target, _, hlines, htarget, hvalue⟩ :=
      linked.targets line (by simp [hsplit]) op value hline transfer
    exact isBoundary_of_line (hlines ▸ hp) htarget hvalue
  link := by
    intro addr value h hi
    rcases h.next small hi with h | ⟨-, hlast⟩
    · exact h
    · rcases last_of_linked linked hp hlast with h | h | ⟨_, h⟩ <;> cases h
  back := id

end Program

-- ---------------------------------------------------------------------------
-- Runs
-- ---------------------------------------------------------------------------

namespace State

theorem run_fault_ne_dispatch (n : Nat)
    (h : ∀ k < n, ((initial p).run p k).isHalted = false →
      ∃ i, p.item? ((initial p).run p k).ip = some (.instr i)) :
    ((initial p).run p n).fault? ≠ some .dispatch := by
  induction n with
  | zero =>
    show (initial p).fault? ≠ _
    cases hp : p.isEmpty <;> simp [initial, fault?, hp]
  | succ n ih =>
    have before := ih fun k hk => h k (Nat.lt_succ_of_lt hk)
    rw [run_succ_last]
    cases hr : ((initial p).run p n).isHalted with
    | true => rwa [step_of_isHalted p hr]
    | false =>
      obtain ⟨i, hi⟩ := h n (Nat.lt_succ_self n) hr
      rw [ne_eq, step_fault_dispatch_iff hr]
      exact fun none => none i hi

/-- A run of linked source never ends in a dispatch fault. As long as it goes
on, it is where the words of some line start and reads the instruction there. -/
theorem no_dispatch_fault (assembled : Program.assemble .strict lines = .ok p)
    (small : p.size < 2 ^ 60) (linked : Linked lines) (n : Nat) :
    ((initial p).run p n).fault? ≠ some .dispatch ∧
      (((initial p).run p n).isHalted = false →
        ∃ before line after i, lines = before ++ line :: after ∧
          onLine? .strict line = some (.instr i) ∧
          ((initial p).run p n).ip.toInt = extent before ∧
          p.item? ((initial p).run p n).ip = some (.instr i)) := by
  have hp := Program.eq_of_assemble assembled
  have places : ∀ k, ((initial p).run p k).isHalted = false →
      ∃ before line after i, lines = before ++ line :: after ∧
        onLine? .strict line = some (.instr i) ∧
        ((initial p).run p k).ip.toInt = extent before ∧
        p.item? ((initial p).run p k).ip = some (.instr i) := by
    intro k hr
    have reached : Reachable p ((initial p).run p k) := ⟨k, rfl⟩
    have within := reached.within (Program.confines_of_linked small linked hp)
    exact Program.line_of_isBoundary small hp (within.1 hr)
  refine ⟨run_fault_ne_dispatch n fun k _ hr => ?_, places n⟩
  obtain ⟨_, _, _, i, -, -, -, hi⟩ := places k hr
  exact ⟨i, hi⟩

def countdown : List String :=
  ["PUSH 2", "CALL 5", "HALT", "", "DUP", "JIF 9", "RET", "PUSH -1", "ADD", "CALL 5", "RET", ""]

theorem countdown_linked : Linked countdown where
  targets := by
    have routine : ∃ before target after, countdown = before ++ target :: after ∧
        onLine? .strict target ≠ none ∧ (5 : Word).toInt = extent before :=
      ⟨countdown.take 4, "DUP", countdown.drop 5, rfl, by decide, by decide⟩
    have again : ∃ before target after, countdown = before ++ target :: after ∧
        onLine? .strict target ≠ none ∧ (9 : Word).toInt = extent before :=
      ⟨countdown.take 7, "PUSH -1", countdown.drop 8, rfl, by decide, by decide⟩
    have parsed : countdown.map (onLine? .strict) =
        [some (.instr (.operand .push 2)), some (.instr (.operand .call 5)),
          some (.instr (.plain .halt)), none, some (.instr (.plain .dup)),
          some (.instr (.operand .jif 9)), some (.instr (.plain .ret)),
          some (.instr (.operand .push (-1))), some (.instr (.plain (.binary .add))),
          some (.instr (.operand .call 5)), some (.instr (.plain .ret)), none] := by
      decide
    intro line hl op value hs transfer
    have written : some (.instr (.operand op value)) ∈ countdown.map (onLine? .strict) :=
      List.mem_map.mpr ⟨line, hl, hs⟩
    simp only [parsed, List.mem_cons, Option.some.injEq, Statement.instr.injEq,
      Instr.operand.injEq, reduceCtorEq, List.not_mem_nil, or_false, false_or] at written
    rcases written with ⟨rfl, rfl⟩ | ⟨rfl, rfl⟩ | ⟨rfl, rfl⟩ | ⟨rfl, rfl⟩ | ⟨rfl, rfl⟩
    · cases transfer
    · exact routine
    · exact again
    · cases transfer
    · exact routine
  last := ⟨countdown.take 10, "RET", [""], .plain .ret, rfl, by decide, by decide, .inr (.inl rfl)⟩

theorem countdown_no_dispatch_fault :
    ∃ p, Program.assemble .strict countdown = .ok p ∧ p.size < 2 ^ 60 ∧ Linked countdown ∧
      ((initial p).run p 40).fault? ≠ some .dispatch := by
  have assembled : Program.assemble .strict countdown =
      .ok (.ofList [1, 2, 18, 5, 0, 3, 15, 9, 19, 1, -1, 4, 18, 5, 19]) := by
    rfl
  have small : (Program.ofList [1, 2, 18, 5, 0, 3, 15, 9, 19, 1, -1, 4, 18, 5, 19]).size < 2 ^ 60 := by
    decide
  exact ⟨_, assembled, small, countdown_linked,
    (no_dispatch_fault assembled small countdown_linked 40).1⟩

end State

end StackMachine
