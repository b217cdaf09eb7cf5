import StackMachine.Proofs.Transition

/-!
# Forward programs halt

A program is forward if its jumps and calls only lead ahead. Returns still go
back, and a chain of routines that each call the next one twice takes a number
of steps exponential in its length, so neither the address nor the call stack
shrinks. What does is a sum over the address and all return addresses in which
every address weighs at least twice as much as any later one. A forward program
halts within as many steps as the sum is at the start (`halts_of_forward`).
-/

namespace StackMachine

namespace Program

variable {p : Program} {addr later : Word} {item : Item}

/-- Any word counts that could be read as a jump or call, also if it is an
operand itself. -/
def Forward (p : Program) : Prop :=
  ∀ (i : Nat) (op : OperandOp) (target : Word), op.isTransfer = true →
    p.words[i]? = some op.code → p.words[i + 1]? = some target → (i : Int) < target.toInt

theorem Forward.lt_target (forward : p.Forward) (small : p.size < 2 ^ 60) {op : OperandOp}
    {target : Word} (h : p.item? addr = some (.instr (.operand op target)))
    (transfer : op.isTransfer = true) : addr.toInt < target.toInt := by
  obtain ⟨i, hi⟩ := Int.eq_ofNat_of_zero_le (lt_size_of_item? h).1
  obtain ⟨hop, htarget⟩ := words_of_operand small hi h
  exact hi ▸ forward i op target transfer hop htarget

-- ---------------------------------------------------------------------------
-- Weights of addresses
-- ---------------------------------------------------------------------------

/-- How many steps can be taken from `addr` on before control returns to where
it came from, if both what a call leads to and what follows it take their full
number. -/
def stepsFrom (p : Program) (addr : Word) : Nat := 2 ^ (p.size - addr.toInt.toNat)

theorem stepsFrom_pos (p : Program) (addr : Word) : 0 < p.stepsFrom addr := Nat.two_pow_pos _

theorem two_pow_mul_stepsFrom_le {k : Nat} (start : 0 ≤ addr.toInt)
    (inside : addr.toInt + k ≤ p.size) (ahead : addr.toInt + k ≤ later.toInt) :
    2 ^ k * p.stepsFrom later ≤ p.stepsFrom addr := by
  rw [stepsFrom, stepsFrom, ← pow_add]
  exact Nat.pow_le_pow_right (by omega) (by omega)

theorem two_mul_stepsFrom_le (h : p.item? addr = some item) (ahead : addr.toInt < later.toInt) :
    2 * p.stepsFrom later ≤ p.stepsFrom addr := by
  obtain ⟨start, inside⟩ := lt_size_of_item? h
  exact two_pow_mul_stepsFrom_le (k := 1) start (by omega) (by omega)

/-- The address behind a call is two words ahead, so it weighs a quarter. -/
theorem four_mul_stepsFrom_le {target : Word} (small : p.size < 2 ^ 60)
    (h : p.item? addr = some (.instr (.operand .call target))) :
    4 * p.stepsFrom ((Opcode.operand .call).after addr) ≤ p.stepsFrom addr := by
  have hafter := toInt_after small h
  have hle := after_le_size small h
  exact two_pow_mul_stepsFrom_le (k := 2) (lt_size_of_item? h).1 (hafter ▸ hle)
    (Int.le_of_eq hafter.symm)

end Program

open Program

namespace State

variable {p : Program} {s : State}

-- ---------------------------------------------------------------------------
-- One step
-- ---------------------------------------------------------------------------

def stepsLeft (p : Program) (s : State) : Nat :=
  p.stepsFrom s.ip + (s.callers.map fun caller => p.stepsFrom caller.returnAddress).sum

theorem stepsLeft_pos (p : Program) (s : State) : 0 < s.stepsLeft p :=
  Nat.add_pos_left (p.stepsFrom_pos s.ip) _

theorem stepsLeft_step_lt (forward : p.Forward) (small : p.size < 2 ^ 60)
    (hr : (s.step p).isHalted = false) : (s.step p).stepsLeft p < s.stepsLeft p := by
  have here := p.stepsFrom_pos s.ip
  unfold stepsLeft
  cases step_control (p := p) (running_of_step hr) with
  | stopped halted => cases halted.symm.trans hr
  | @continued i item _ _ ip callers =>
    have hsize : 0 < i.size := (Item.instr i).size_pos
    have hafter := toInt_after small item
    have ahead : s.ip.toInt < (i.opcode.after s.ip).toInt := by omega
    have hnext := two_mul_stepsFrom_le item ahead
    rw [ip, callers]
    omega
  | jumped item transfer _ ip callers =>
    have htarget := two_mul_stepsFrom_le item (forward.lt_target small item transfer)
    rw [ip, callers]
    omega
  | called item _ ip callers =>
    -- both the target and the address to return to are added; they fit into half and a quarter
    have htarget := two_mul_stepsFrom_le item (forward.lt_target small item rfl)
    have hbehind := four_mul_stepsFrom_le small item
    rw [ip, callers, List.map_cons, List.sum_cons]
    show _ + (p.stepsFrom ((Opcode.operand .call).after s.ip) + _) < _
    omega
  | returned _ waiting _ ip _ callers =>
    rw [waiting, ip, callers, List.map_cons, List.sum_cons]
    omega

-- ---------------------------------------------------------------------------
-- Runs
-- ---------------------------------------------------------------------------

theorem isHalted_run_of_stepsLeft_le (forward : p.Forward) (small : p.size < 2 ^ 60) {n : Nat}
    (enough : s.stepsLeft p ≤ n) : (s.run p n).isHalted = true := by
  induction n generalizing s with
  | zero =>
    have hpos := s.stepsLeft_pos p
    omega
  | succ n ih =>
    rw [run_succ]
    cases hr : (s.step p).isHalted with
    | true => rwa [run_of_isHalted p n hr]
    | false =>
      have hlt := stepsLeft_step_lt forward small hr
      exact ih (by omega)

/-- A forward program halts, however many calls it makes on the way. -/
theorem halts_of_forward (small : p.size < 2 ^ 60) (forward : p.Forward) :
    ∃ n ≤ 2 ^ p.size, ((initial p).run p n).isHalted = true ∧
      ∀ m ≥ n, (initial p).run p m = (initial p).run p n := by
  have halted : ((initial p).run p (2 ^ p.size)).isHalted = true := by
    refine isHalted_run_of_stepsLeft_le forward small (Nat.le_of_eq ?_)
    simp [stepsLeft, stepsFrom, initial]
  refine ⟨2 ^ p.size, Nat.le_refl _, halted, fun m hm => ?_⟩
  obtain ⟨k, rfl⟩ := Nat.exists_eq_add_of_le hm
  rw [run_add, run_of_isHalted p k halted]

def cascade : Program := .ofList [18, 2, 18, 4, 19]

theorem cascade_forward : cascade.Forward := by
  intro i op target transfer hop htarget
  have hi : i + 1 < 5 := (Array.getElem?_eq_some_iff.1 htarget).1
  obtain rfl | rfl | rfl | rfl : i = 0 ∨ i = 1 ∨ i = 2 ∨ i = 3 := by omega
  · obtain rfl := Option.some.inj htarget
    decide
  · cases op <;> exact absurd hop (by decide)
  · obtain rfl := Option.some.inj htarget
    decide
  · cases op <;> exact absurd hop (by decide)

theorem cascade_halts : cascade.size < 2 ^ 60 ∧ cascade.Forward ∧
    ∃ n ≤ 32, ((initial cascade).run cascade n).isHalted = true := by
  obtain ⟨n, hn, halted, -⟩ := halts_of_forward (by decide) cascade_forward
  exact ⟨by decide, cascade_forward, n, hn, halted⟩

end State

end StackMachine
