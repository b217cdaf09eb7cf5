import StackMachine.Step

/-!
# Runs

A run takes steps until the state is halted or a number of steps is used up.
-/

namespace StackMachine.State

def run (p : Program) : Nat → State → State
  | 0, s => s
  | n + 1, s => if s.isHalted then s else run p n (s.step p)

/-- The states in which the first `n` steps are taken. -/
def visited (p : Program) : Nat → State → List State
  | 0, _ => []
  | n + 1, s => if s.isHalted then [] else s :: visited p n (s.step p)

def trace (p : Program) (n : Nat) (s : State) : List State := (s.visited p n).map (·.step p)

@[simp] theorem run_zero (p : Program) (s : State) : s.run p 0 = s := rfl

theorem run_of_isHalted (p : Program) (n : Nat) {s : State} (h : s.isHalted = true) :
    s.run p n = s := by
  cases n <;> simp [run, h]

theorem run_succ (p : Program) (n : Nat) (s : State) : s.run p (n + 1) = (s.step p).run p n := by
  by_cases h : s.isHalted = true
  · rw [step_of_isHalted p h, run_of_isHalted p _ h, run_of_isHalted p _ h]
  · simp [run, h]

theorem run_add (p : Program) (m n : Nat) (s : State) : s.run p (m + n) = (s.run p m).run p n := by
  induction m generalizing s with
  | zero => simp
  | succ m ih => rw [Nat.add_right_comm, run_succ, run_succ, ih]

theorem run_succ_last (p : Program) (n : Nat) (s : State) :
    s.run p (n + 1) = (s.run p n).step p := by
  rw [run_add, run_succ, run_zero]

theorem run_eq_of_isHalted {p : Program} {s : State} {m n : Nat}
    (halted : (s.run p n).isHalted = true) (h : n ≤ m) : s.run p m = s.run p n := by
  obtain ⟨k, rfl⟩ := Nat.exists_eq_add_of_le h
  rw [run_add, run_of_isHalted p k halted]

theorem running_of_le {p : Program} {s : State} {m n : Nat} (hr : (s.run p m).isHalted = false)
    (h : n ≤ m) : (s.run p n).isHalted = false := by
  cases hn : (s.run p n).isHalted with
  | false => rfl
  | true => rwa [run_eq_of_isHalted hn h, hn] at hr

theorem quiet_of_run {p : Program} {s : State} {n : Nat} (quiet : (s.run p n).fault? = none) :
    s.fault? = none := by
  cases hf : s.fault? with
  | none => rfl
  | some fault =>
    rw [run_of_isHalted p n (isHalted_of_fault? hf), hf] at quiet
    cases quiet

theorem visited_succ_last (p : Program) (n : Nat) (s : State) (hr : (s.run p n).isHalted = false) :
    s.visited p (n + 1) = s.visited p n ++ [s.run p n] := by
  induction n generalizing s with
  | zero =>
    have hs : s.isHalted = false := hr
    simp [visited, hs]
  | succ n ih =>
    cases hs : s.isHalted with
    | true => simp [run_of_isHalted p _ hs, hs] at hr
    | false =>
      rw [run_succ] at hr ⊢
      have later := ih (s.step p) hr
      simp only [visited, hs] at later ⊢
      simp [later]

end StackMachine.State
