import StackMachine.Proofs.Transition

/-!
# What lies beneath

Operands and callers can be put beneath those of a state. A run that meets no
fault without them meets none with them, takes the same way and leaves them
where they are (`run_onTopOf_of_quiet`): code that never runs out of operands or
callers of its own neither reads nor changes what was there before it.

Faults are different. What is beneath can turn a fault for want of operands
into a step that goes on.
-/

namespace StackMachine.State

variable {p : Program} {s : State} {cells : List Cell} {callers : List Caller} {n : Nat}

def onTopOf (s : State) (cells : List Cell) (callers : List Caller) : State :=
  { s with stack := s.stack ++ cells, callers := s.callers ++ callers }

-- ---------------------------------------------------------------------------
-- One instruction
-- ---------------------------------------------------------------------------

theorem Executed.onTopOf {i : Instr} {t : State} (h : Executed s i t) :
    (s.onTopOf cells callers).execute i = t.onTopOf cells callers := by
  cases h with
  | halt | push | jmp | load | call => rfl
  | pop operands | dup operands | not operands =>
    simp [execute, executePlain, State.onTopOf, operands]
  | binary operands defined =>
    simp [execute, executePlain, executeBinary, State.onTopOf, operands, defined]
  | jif operands | store operands => simp [execute, executeOperand, State.onTopOf, operands]
  | ret waiting => simp [execute, executePlain, State.onTopOf, waiting]

-- ---------------------------------------------------------------------------
-- One step
-- ---------------------------------------------------------------------------

theorem step_onTopOf (quiet : (s.step p).fault? = s.fault?) :
    (s.onTopOf cells callers).step p = (s.step p).onTopOf cells callers := by
  cases hr : s.isHalted with
  | true =>
    rw [step_of_isHalted p hr]
    exact step_of_isHalted p hr
  | false =>
    rw [fault?_eq_none hr] at quiet
    obtain ⟨i, hi, row⟩ := executed_of_quiet hr quiet
    have running : (s.onTopOf cells callers).isHalted = false := hr
    rw [step_of_instr running hi]
    exact row.onTopOf

-- ---------------------------------------------------------------------------
-- Runs
-- ---------------------------------------------------------------------------

theorem fault?_run_of_le (quiet : (s.run p n).fault? = s.fault?) {k : Nat} (hk : k ≤ n) :
    (s.run p k).fault? = s.fault? := by
  obtain ⟨m, rfl⟩ := Nat.exists_eq_add_of_le hk
  rw [run_add] at quiet
  cases hf : (s.run p k).fault? with
  | some fault =>
    rwa [run_of_isHalted p m (isHalted_of_fault? hf), hf] at quiet
  | none => exact (quiet_of_run hf).symm

theorem run_onTopOf (cells : List Cell) (callers : List Caller)
    (quiet : (s.run p n).fault? = s.fault?) :
    (s.onTopOf cells callers).run p n = (s.run p n).onTopOf cells callers := by
  induction n with
  | zero => rfl
  | succ n ih =>
    have before := fault?_run_of_le quiet (Nat.le_succ n)
    rw [run_succ_last] at quiet
    rw [run_succ_last, run_succ_last, ih before]
    exact step_onTopOf (quiet.trans before.symm)

/-- If `n` steps record no fault, they and those before them are the same with
operands and callers beneath, which stay as they were put there. -/
theorem run_onTopOf_of_quiet (cells : List Cell) (callers : List Caller)
    (quiet : (s.run p n).fault? = s.fault?) {k : Nat} (hk : k ≤ n) :
    (s.onTopOf cells callers).run p k =
        { s.run p k with
          stack := (s.run p k).stack ++ cells, callers := (s.run p k).callers ++ callers } ∧
      ((s.onTopOf cells callers).run p k).fault? = s.fault? := by
  have before := fault?_run_of_le quiet hk
  have same := run_onTopOf cells callers before
  exact ⟨same, same ▸ before⟩

def doubling : Program := .ofList [1, 5, 18, 5, 0, 3, 4, 19]

theorem doubling_keeps_beneath :
    ((initial doubling).run doubling 6).fault? = (initial doubling).fault? ∧
      (((initial doubling).onTopOf [1, 2] [⟨9, .empty⟩]).run doubling 6).stack =
        ((initial doubling).run doubling 6).stack ++ [1, 2] ∧
      (((initial doubling).onTopOf [1, 2] [⟨9, .empty⟩]).run doubling 6).callers =
        [⟨9, .empty⟩] := by
  have quiet : ((initial doubling).run doubling 6).fault? = (initial doubling).fault? := by
    decide +kernel
  obtain ⟨same, -⟩ := run_onTopOf_of_quiet [1, 2] [⟨9, .empty⟩] quiet (Nat.le_refl 6)
  have returned : ((initial doubling).run doubling 6).callers = [] :=
    List.length_eq_zero_iff.1 (by decide +kernel)
  rw [same]
  exact ⟨quiet, rfl, by simp [returned]⟩

end StackMachine.State
