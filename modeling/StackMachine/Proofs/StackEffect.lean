import StackMachine.Proofs.CallLog

/-!
# The trace accounts for the stack

An instruction that is executed changes the number of operands by an amount
which depends on its opcode alone. In detail, a run reports every opcode that it
executes, so as long as there is no fault the depth of the stack can be told from
the report (`trace_accounts`).
-/

namespace StackMachine

-- ---------------------------------------------------------------------------
-- Effects
-- ---------------------------------------------------------------------------

def PlainOp.stackEffect : PlainOp → Int
  | .dup => 1
  | .pop | .binary _ => -1
  | .halt | .not | .ret => 0

def OperandOp.stackEffect : OperandOp → Int
  | .push | .load => 1
  | .jif | .store => -1
  | .jmp | .call => 0

def Opcode.stackEffect : Opcode → Int
  | .plain op => op.stackEffect
  | .operand op => op.stackEffect

def Event.stackEffect : Event → Int
  | .executing _ op => op.stackEffect
  | .halted .. | .calling .. | .returning .. | .faulted .. | .code .. => 0

def stackEffect (events : List Event) : Int := (events.map Event.stackEffect).sum

variable {events earlier : List Event} {e : Event}

@[simp] theorem stackEffect_nil : stackEffect [] = 0 := rfl

@[simp] theorem stackEffect_cons (e : Event) (events : List Event) :
    stackEffect (e :: events) = e.stackEffect + stackEffect events := rfl

@[simp] theorem stackEffect_append (events more : List Event) :
    stackEffect (events ++ more) = stackEffect events + stackEffect more := by
  simp [stackEffect]

theorem Event.stackEffect_of_level (h : e.level ≠ .trace) : e.stackEffect = 0 := by
  cases e with
  | executing => exact absurd rfl h
  | halted | calling | returning | faulted | code => rfl

theorem stackEffect_of_levels (h : ∀ e ∈ events, e.level ≠ .trace) : stackEffect events = 0 := by
  induction events with
  | nil => rfl
  | cons e rest ih =>
    obtain ⟨here, there⟩ := List.forall_mem_cons.1 h
    rw [stackEffect_cons, Event.stackEffect_of_level here, ih there, Int.zero_add]

def traceRecords (events : List Event) : List Event := events.filter (·.level = .trace)

theorem traceRecords_append (events more : List Event) :
    traceRecords (events ++ more) = traceRecords events ++ traceRecords more :=
  List.filter_append ..

theorem stackEffect_traceRecords (events : List Event) :
    stackEffect (traceRecords events) = stackEffect events := by
  induction events with
  | nil => rfl
  | cons e rest ih =>
    by_cases h : e.level = .trace
    · simpa [traceRecords, h] using ih
    · simpa [traceRecords, h, Event.stackEffect_of_level h] using ih

namespace State

variable {p : Program} {s : State} {i : Instr}

-- ---------------------------------------------------------------------------
-- One instruction
-- ---------------------------------------------------------------------------

theorem Executed.depth {t : State} (h : Executed s i t) :
    (t.depth : Int) = s.depth + i.opcode.stackEffect := by
  show (t.stack.length : Int) = s.stack.length + i.opcode.stackEffect
  cases h with
  | halt | ret | jmp | call => exact (Int.add_zero _).symm
  | push | load => rfl
  | pop operands | dup operands | not operands | binary operands | jif operands | store operands =>
    simp [operands, Instr.opcode, Opcode.stackEffect, PlainOp.stackEffect, OperandOp.stackEffect]

-- ---------------------------------------------------------------------------
-- One step
-- ---------------------------------------------------------------------------

/-- The event announces the instruction at the address of the state, and shows the
address and the mnemonic. -/
def Announces (p : Program) (s : State) (e : Event) : Prop :=
  ∃ w op, p.fetch s.ip = some w ∧ Opcode.ofWord? w = some op ∧ e = .executing s.ip op ∧
    e.message p = "[" ++ String.ofList (Text.Decimal.padded 4 (Text.Decimal.ofInt s.ip.toInt)) ++
      "] " ++ op.mnemonic

theorem level_of_mem_notices {e : Event} (h : e ∈ s.notices p) : e.level ≠ .trace := by
  unfold notices at h
  split at h
  · obtain rfl := List.mem_singleton.1 h
    exact nofun
  · obtain ⟨caller, -, rfl⟩ := List.mem_map.1 h
    exact nofun
  · obtain rfl := List.mem_singleton.1 h
    exact nofun
  · cases h

/-- A step that records no fault announces one instruction, and executes it. -/
theorem events_of_quiet (hr : s.isHalted = false) (quiet : (s.step p).fault? = none) :
    ∃ op, Announces p s (.executing s.ip op) ∧
      s.events p = .executing s.ip op :: s.notices p ∧
      ((s.step p).depth : Int) = s.depth + op.stackEffect := by
  obtain ⟨i, hi, row⟩ := executed_of_quiet hr quiet
  obtain ⟨w, hw, hread⟩ := Option.map_eq_some_iff.1 hi
  have hop : Opcode.ofWord? w = some i.opcode := by
    rw [← Item.opcode?_read w (p.fetch s.ip.next), hread]
    rfl
  refine ⟨i.opcode, ⟨w, i.opcode, hw, hop, rfl, rfl⟩, ?_, row.depth⟩
  simp [events, hr, announcement, hi, Item.opcode?, faultReport, quiet]

theorem stackEffect_of_notices {notices : List Event} (h : notices <+: s.notices p) :
    stackEffect notices = 0 :=
  stackEffect_of_levels fun _ he => level_of_mem_notices (h.subset he)

theorem depth_step (quiet : (s.step p).fault? = none) :
    ((s.step p).depth : Int) = s.depth + stackEffect (s.events p) := by
  cases hr : s.isHalted with
  | true => simp [step_of_isHalted p hr, events, hr]
  | false =>
    obtain ⟨op, -, hevents, hdepth⟩ := events_of_quiet hr quiet
    rw [hevents, stackEffect_cons, stackEffect_of_notices (List.prefix_refl _), hdepth]
    exact congrArg _ (Int.add_zero _).symm

theorem depth_of_prefix (quiet : (s.step p).fault? = none) {earlier : List Event}
    (h : earlier <+: s.events p) :
    stackEffect earlier = 0 ∨ stackEffect earlier = stackEffect (s.events p) := by
  cases hr : s.isHalted with
  | true =>
    rw [events, if_pos hr, List.prefix_nil] at h
    exact .inl (h ▸ rfl)
  | false =>
    obtain ⟨op, -, hevents, -⟩ := events_of_quiet hr quiet
    rw [hevents, List.prefix_cons_iff] at h
    rcases h with rfl | ⟨noticed, rfl, hnoticed⟩
    · exact .inl rfl
    · refine .inr ?_
      rw [hevents, stackEffect_cons, stackEffect_cons, stackEffect_of_notices hnoticed,
        stackEffect_of_notices (List.prefix_refl _)]

-- ---------------------------------------------------------------------------
-- Runs
-- ---------------------------------------------------------------------------

theorem announced_run {n : Nat} (quiet : (s.run p n).fault? = none) :
    List.Forall₂ (Announces p) (s.visited p n) (traceRecords (s.log p n)) := by
  induction n generalizing s with
  | zero => exact .nil
  | succ n ih =>
    cases hr : s.isHalted with
    | true => simp [visited, log, hr, traceRecords]
    | false =>
      rw [run_succ] at quiet
      obtain ⟨op, announces, hevents, -⟩ := events_of_quiet hr (quiet_of_run quiet)
      have records : traceRecords (s.events p) = [.executing s.ip op] := by
        have noticed : traceRecords (s.notices p) = [] :=
          List.filter_eq_nil_iff.2 fun e he => by simpa using level_of_mem_notices he
        rw [hevents]
        exact congrArg (_ :: ·) noticed
      rw [log_succ, traceRecords_append, records, visited, hr]
      exact .cons announces (ih quiet)

theorem depth_run {n : Nat} (quiet : (s.run p n).fault? = none) :
    ((s.run p n).depth : Int) = s.depth + stackEffect (s.log p n) := by
  induction n generalizing s with
  | zero => simp [log, visited]
  | succ n ih =>
    rw [run_succ] at quiet ⊢
    rw [ih quiet, depth_step (quiet_of_run quiet), log_succ, stackEffect_append, Int.add_assoc]

theorem stackEffect_prefix_nonneg {n : Nat} (quiet : (s.run p n).fault? = none)
    {earlier : List Event} (h : earlier <+: s.log p n) : 0 ≤ s.depth + stackEffect earlier := by
  induction n generalizing s earlier with
  | zero =>
    obtain rfl := List.prefix_nil.1 h
    exact Int.natCast_nonneg _
  | succ n ih =>
    rw [run_succ] at quiet
    rw [log_succ] at h
    have taken := depth_step (quiet_of_run quiet)
    -- the part ends within the report of the first step or behind it
    rcases List.prefix_or_prefix_of_prefix h (List.prefix_append _ _) with within | ⟨more, rfl⟩
    · have before : (0 : Int) ≤ s.depth := Int.natCast_nonneg _
      have after : (0 : Int) ≤ (s.step p).depth := Int.natCast_nonneg _
      rcases depth_of_prefix (quiet_of_run quiet) within with h | h <;> omega
    · rw [List.prefix_append_right_inj] at h
      have rest := ih quiet h
      rw [stackEffect_append]
      omega

/-- A run without a fault reports each instruction that it executes once, in
order, at the address at which it was found. The effects of these instructions
add up to the depth of the stack, and to no less than zero at any point. -/
theorem trace_accounts (p : Program) (n : Nat) (quiet : ((initial p).run p n).fault? = none) :
    List.Forall₂ (Announces p) ((initial p).visited p n)
      (traceRecords (Level.trace.select ((initial p).log p n))) ∧
    (((initial p).run p n).depth : Int) =
      stackEffect (traceRecords (Level.trace.select ((initial p).log p n))) ∧
    ∀ earlier, earlier <+: Level.trace.select ((initial p).log p n) → 0 ≤ stackEffect earlier := by
  have start : ((initial p).depth : Int) = 0 := rfl
  rw [Level.select_trace]
  refine ⟨announced_run quiet, ?_, fun earlier h => ?_⟩
  · rw [stackEffect_traceRecords, depth_run quiet, start, Int.zero_add]
  · have nonneg := stackEffect_prefix_nonneg quiet h
    rwa [start, Int.zero_add] at nonneg

def doubleInRoutine : Program := .ofList [1, 21, 18, 5, 0, 3, 4, 19]

def doubleInRoutineRecords : List Event :=
  [.executing 0 (.operand .push), .executing 2 (.operand .call), .executing 5 (.plain .dup),
   .executing 6 (.plain (.binary .add)), .executing 7 (.plain .ret), .executing 4 (.plain .halt)]

theorem doubleInRoutine_accounts :
    ((initial doubleInRoutine).run doubleInRoutine 9).fault? = none ∧
      traceRecords (Level.trace.select ((initial doubleInRoutine).log doubleInRoutine 9)) =
        doubleInRoutineRecords ∧
      doubleInRoutineRecords.map (·.message doubleInRoutine) =
        ["[0000] PUSH", "[0002] CALL", "[0005] DUP", "[0006] ADD", "[0007] RET", "[0004] HALT"] ∧
      (((initial doubleInRoutine).run doubleInRoutine 9).depth : Int) =
        stackEffect doubleInRoutineRecords ∧
      0 ≤ stackEffect (doubleInRoutineRecords.take 1) := by
  have quiet : ((initial doubleInRoutine).run doubleInRoutine 9).fault? = none := by decide +kernel
  have records :
      traceRecords (Level.trace.select ((initial doubleInRoutine).log doubleInRoutine 9)) =
        doubleInRoutineRecords := by decide +kernel
  have first : doubleInRoutineRecords.take 1 <+:
      Level.trace.select ((initial doubleInRoutine).log doubleInRoutine 9) := by decide +kernel
  obtain ⟨-, depth, nonneg⟩ := trace_accounts doubleInRoutine 9 quiet
  rw [records] at depth
  exact ⟨quiet, records, by decide +kernel, depth, nonneg _ first⟩

end State

end StackMachine
