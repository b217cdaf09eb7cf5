import StackMachine.Run
import StackMachine.Proofs.Refusal

/-!
# Control flow of a step

What one step can do to the address, the frame and the waiting callers
(`step_control`), and when it is stopped by a dispatch fault
(`step_fault_dispatch_iff`). Invariants of runs are derived from these two;
`Reachable.within` does so for sets of addresses that control cannot leave.
-/

namespace StackMachine

def OperandOp.isTransfer : OperandOp → Bool
  | .jmp | .jif | .call => true
  | .push | .load | .store => false

/-- Instructions that can be followed by the one behind them. After a call
that one is reached only by the return. -/
def Instr.fallsThrough : Instr → Bool
  | .plain .halt | .plain .ret | .operand .jmp _ | .operand .call _ => false
  | .plain _ | .operand .. => true

-- ---------------------------------------------------------------------------
-- Addresses
-- ---------------------------------------------------------------------------

section
variable {p : Program} {addr : Word}

def Program.Outside (p : Program) (addr : Word) : Prop := addr.toInt < 0 ∨ p.size ≤ addr.toInt

theorem Program.item?_eq_none_iff : p.item? addr = none ↔ p.Outside addr := by
  rw [item?, Option.map_eq_none_iff, fetch_eq_none_iff, Outside]

theorem Program.lt_size_of_item? {item : Item} (h : p.item? addr = some item) :
    0 ≤ addr.toInt ∧ addr.toInt < p.size := by
  have inside : ¬ p.Outside addr := by
    intro outside
    cases h.symm.trans (item?_eq_none_iff.2 outside)
  unfold Outside at inside
  omega

/-- Within a program the highest word is far away, so the next address is the
next integer. -/
theorem Program.toInt_next {item : Item} (small : p.size < 2 ^ 60) (h : p.item? addr = some item) :
    addr.next.toInt = addr.toInt + 1 := by
  have hlt := lt_size_of_item? h
  rw [Word.toInt_next]
  omega

theorem Program.item?_of_toInt {n : Nat} {w : Word} (small : p.size < 2 ^ 60)
    (hn : addr.toInt = n) (hw : p.words[n]? = some w) :
    p.item? addr = some (.read w p.words[n + 1]?) := by
  have hitem : p.item? addr = some (.read w (p.fetch addr.next)) := by
    rw [item?, fetch_of_toInt hn, hw, Option.map_some]
  have hnext : addr.next.toInt = ((n + 1 : Nat) : Int) := by
    rw [toInt_next small hitem, hn]
    rfl
  rw [hitem, fetch_of_toInt hnext]

theorem Program.toInt_after {i : Instr} (small : p.size < 2 ^ 60)
    (h : p.item? addr = some (.instr i)) :
    (i.opcode.after addr).toInt = addr.toInt + i.size := by
  have hlt := lt_size_of_item? h
  cases i with
  | plain op => exact toInt_next small h
  | operand op value =>
    show addr.next.next.toInt = _
    rw [Word.toInt_next, toInt_next small h]
    simp only [Instr.size]
    omega

theorem Program.fetch_of_item? {item : Item} :
    p.item? addr = some item → match item with
    | .instr (.plain op) => p.fetch addr = some op.code
    | .instr (.operand op value) => p.fetch addr = some op.code ∧ p.fetch addr.next = some value
    | .truncated op => p.fetch addr = some op.code ∧ p.fetch addr.next = none
    | .unknown w => p.fetch addr = some w ∧ Opcode.ofWord? w = none := by
  intro h
  obtain ⟨w, hw, rfl⟩ := Option.map_eq_some_iff.1 h
  unfold Item.read
  cases hop : Opcode.ofWord? w with
  | none => exact ⟨hw, hop⟩
  | some op =>
    obtain rfl := Opcode.ofWord?_eq_some_iff.1 hop
    cases op with
    | plain op => exact hw
    | operand op => cases p.fetch addr.next <;> exact ⟨hw, rfl⟩

theorem Program.lt_size_of_fetch {w : Word} (h : p.fetch addr = some w) :
    0 ≤ addr.toInt ∧ addr.toInt < p.size :=
  lt_size_of_item? (congrArg (Option.map _) h)

theorem Program.words_of_operand {op : OperandOp} {value : Word} {n : Nat} (small : p.size < 2 ^ 60)
    (hn : addr.toInt = n) (h : p.item? addr = some (.instr (.operand op value))) :
    p.words[n]? = some op.code ∧ p.words[n + 1]? = some value := by
  have hnext : addr.next.toInt = ((n + 1 : Nat) : Int) := by
    rw [toInt_next small h, hn]
    rfl
  rw [← fetch_of_toInt hn, ← fetch_of_toInt hnext]
  exact fetch_of_item? h

theorem Program.after_le_size {i : Instr} (small : p.size < 2 ^ 60)
    (h : p.item? addr = some (.instr i)) : (i.opcode.after addr).toInt ≤ p.size := by
  have hafter := toInt_after small h
  cases i with
  | plain op =>
    have hlt := lt_size_of_item? h
    simp only [Instr.size] at hafter
    omega
  | operand op value =>
    have hlt := lt_size_of_fetch (fetch_of_item? h).2
    have hnext := toInt_next small h
    simp only [Instr.size] at hafter
    omega

end

namespace State

-- ---------------------------------------------------------------------------
-- One step
-- ---------------------------------------------------------------------------

/-- The ways from a running state to the next one, as far as control goes. -/
inductive Control (p : Program) (s t : State) : Prop
  | stopped (halted : t.isHalted = true) (frame : t.frame = s.frame)
      (callers : t.callers = s.callers)
  | continued {i : Instr} (item : p.item? s.ip = some (.instr i)) (falls : i.fallsThrough = true)
      (running : t.isHalted = false) (ip : t.ip = i.opcode.after s.ip)
      (callers : t.callers = s.callers)
  | jumped {op : OperandOp} {target : Word}
      (item : p.item? s.ip = some (.instr (.operand op target))) (transfer : op.isTransfer = true)
      (running : t.isHalted = false) (ip : t.ip = target) (callers : t.callers = s.callers)
  | called {target : Word} (item : p.item? s.ip = some (.instr (.operand .call target)))
      (running : t.isHalted = false) (ip : t.ip = target)
      (callers : t.callers = ⟨(Opcode.operand .call).after s.ip, s.frame⟩ :: s.callers)
  | returned {caller : Caller} {rest : List Caller}
      (item : p.item? s.ip = some (.instr (.plain .ret))) (waiting : s.callers = caller :: rest)
      (running : t.isHalted = false) (ip : t.ip = caller.returnAddress)
      (frame : t.frame = caller.frame) (callers : t.callers = rest)

variable {p : Program} {s : State}

@[simp] theorem fault?_stop (s : State) (fault : Fault) : (s.stop fault).fault? = some fault := rfl

theorem running_of_step (hr : (s.step p).isHalted = false) : s.isHalted = false := by
  cases hs : s.isHalted with
  | true => rwa [step_of_isHalted p hs, hs] at hr
  | false => rfl

theorem Executed.control {i : Instr} {t : State} (hr : s.isHalted = false)
    (hi : p.item? s.ip = some (.instr i))
    (row : Executed { s with ip := i.opcode.after s.ip } i t) : Control p s t := by
  cases row with
  | halt => exact .stopped rfl rfl rfl
  | pop | dup | not | binary | push | load | store => exact .continued hi rfl hr rfl rfl
  | jmp => exact .jumped hi rfl hr rfl rfl
  | call => exact .called hi hr rfl rfl
  | ret waiting => exact .returned hi waiting hr rfl rfl rfl
  | @jif target top rest operands =>
    cases htop : top.isTrue with
    | true => exact .jumped hi rfl hr rfl rfl
    | false => exact .continued hi rfl hr rfl rfl

theorem step_control (hr : s.isHalted = false) : Control p s (s.step p) := by
  rcases hi : p.item? s.ip with _ | (i | op | w)
  · rw [step_of_none hr hi]
    exact .stopped rfl rfl rfl
  · rw [step_of_instr hr hi]
    cases hf : i.refusal { s with ip := i.opcode.after s.ip } with
    | some fault =>
      rw [execute_of_refusal hf]
      exact .stopped rfl rfl rfl
    | none => exact (executed hf).control hr hi
  · rw [step_of_truncated hr hi]
    exact .stopped rfl rfl rfl
  · rw [step_of_unknown hr hi]
    exact .stopped rfl rfl rfl

-- ---------------------------------------------------------------------------
-- Dispatch faults
-- ---------------------------------------------------------------------------

theorem fault?_eq_none (hr : s.isHalted = false) : s.fault? = none := by
  cases h : s.status <;> simp_all [fault?, isHalted]

theorem execute_no_dispatch (hs : s.fault? = none) (i : Instr) :
    (s.execute i).fault? ≠ some .dispatch := by
  intro h
  rw [fault?_execute hs] at h
  exact Instr.refusal_eq_some_iff.1 h

theorem step_fault_dispatch_iff (hr : s.isHalted = false) :
    (s.step p).fault? = some .dispatch ↔ ∀ i, p.item? s.ip ≠ some (.instr i) := by
  rcases hi : p.item? s.ip with _ | (i | op | w)
  · simp [step_of_none hr hi]
  · rw [step_of_instr hr hi]
    constructor
    · intro h
      exact absurd h (execute_no_dispatch (s := { s with ip := i.opcode.after s.ip })
        (fault?_eq_none hr) i)
    · intro h
      exact absurd rfl (h i)
  · simp [step_of_truncated hr hi]
  · simp [step_of_unknown hr hi]

theorem exists_execute_of_step (hr : s.isHalted = false)
    (h : (s.step p).fault? ≠ some .dispatch) :
    ∃ i, p.item? s.ip = some (.instr i) ∧
      s.step p = { s with ip := i.opcode.after s.ip }.execute i := by
  rw [ne_eq, step_fault_dispatch_iff hr] at h
  obtain ⟨i, hi⟩ := Classical.not_forall_not.1 h
  exact ⟨i, hi, step_of_instr hr hi⟩

theorem executed_of_quiet (hr : s.isHalted = false) (quiet : (s.step p).fault? = none) :
    ∃ i, p.item? s.ip = some (.instr i) ∧
      Executed { s with ip := i.opcode.after s.ip } i (s.step p) := by
  obtain ⟨i, hi, hstep⟩ := exists_execute_of_step (p := p) hr (by simp [quiet])
  have moved : { s with ip := i.opcode.after s.ip }.fault? = none := fault?_eq_none hr
  rw [hstep, fault?_execute moved] at quiet
  exact ⟨i, hi, hstep ▸ executed quiet⟩

-- ---------------------------------------------------------------------------
-- Runs
-- ---------------------------------------------------------------------------

theorem run_inv (Inv : State → Prop) (step : ∀ s, Inv s → Inv (s.step p)) (hs : Inv s) (n : Nat) :
    Inv (s.run p n) := by
  induction n with
  | zero => exact hs
  | succ n ih =>
    rw [run_succ_last]
    exact step _ ih

def Reachable (p : Program) (s : State) : Prop := ∃ n, (initial p).run p n = s

/-- `Safe` addresses, from which control only goes to `Safe` addresses, and
`Link` addresses, which calls leave behind to return to. -/
structure Confines (p : Program) (Safe Link : Word → Prop) : Prop where
  start : Safe 0
  next : ∀ {addr i}, Safe addr → p.item? addr = some (.instr i) → i.fallsThrough = true →
    Safe (i.opcode.after addr)
  target : ∀ {addr op value}, Safe addr → p.item? addr = some (.instr (.operand op value)) →
    op.isTransfer = true → Safe value
  link : ∀ {addr value}, Safe addr → p.item? addr = some (.instr (.operand .call value)) →
    Link ((Opcode.operand .call).after addr)
  back : ∀ {addr}, Link addr → Safe addr

/-- A halted state may have left the safe addresses: HALT as the last word. -/
def Within (Safe Link : Word → Prop) (s : State) : Prop :=
  (s.isHalted = false → Safe s.ip) ∧ ∀ caller ∈ s.callers, Link caller.returnAddress

theorem step_within {Safe Link : Word → Prop} (h : Confines p Safe Link) (hs : s.Within Safe Link) :
    (s.step p).Within Safe Link := by
  cases hr : s.isHalted with
  | true => rwa [step_of_isHalted p hr]
  | false =>
    have safe := hs.1 hr
    cases step_control (p := p) hr with
    | stopped halted _ callers =>
      exact ⟨fun running => (nomatch halted.symm.trans running), callers ▸ hs.2⟩
    | continued item falls _ ip callers =>
      exact ⟨fun _ => ip ▸ h.next safe item falls, callers ▸ hs.2⟩
    | jumped item transfer _ ip callers =>
      exact ⟨fun _ => ip ▸ h.target safe item transfer, callers ▸ hs.2⟩
    | called item _ ip callers =>
      refine ⟨fun _ => ip ▸ h.target safe item rfl, fun caller hc => ?_⟩
      rw [callers] at hc
      rcases List.mem_cons.1 hc with rfl | hc
      · exact h.link safe item
      · exact hs.2 caller hc
    | @returned caller rest _ waiting _ ip _ callers =>
      have links := hs.2
      rw [waiting] at links
      refine ⟨fun _ => ip ▸ h.back (links caller List.mem_cons_self), fun other ho => ?_⟩
      exact links other (List.mem_cons_of_mem _ (callers ▸ ho))

theorem reachable_inv (Inv : State → Prop) (start : Inv (initial p))
    (step : ∀ s, Inv s → Inv (s.step p)) (h : Reachable p s) : Inv s := by
  obtain ⟨n, rfl⟩ := h
  exact run_inv Inv step start n

theorem Reachable.within {Safe Link : Word → Prop} (h : Reachable p s)
    (confines : Confines p Safe Link) : s.Within Safe Link :=
  reachable_inv (Within Safe Link) ⟨fun _ => confines.start, by simp [initial]⟩
    (fun _ => step_within confines) h

end State

end StackMachine
