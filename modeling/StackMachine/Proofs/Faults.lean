import StackMachine.Proofs.PostMortem

/-!
# Faults of a step

When a step is stopped, which fault it records and what it leaves behind
(`step_faults`). The conditions are on the words at the address and on what is
on the stack: an instruction that cannot be read in full is not looked at any
further, so a missing operand word comes before missing operands on the stack.
-/

namespace StackMachine.State

open Program

variable {p : Program} {s : State} {fault : Fault}

-- ---------------------------------------------------------------------------
-- Conditions
-- ---------------------------------------------------------------------------

/-- The opcode at the address, also if its operand is missing. There is none
outside the program, nor for a word that is no opcode. -/
def opcode? (p : Program) (s : State) : Option Opcode := (p.fetch s.ip).bind Opcode.ofWord?

/-- What it takes for the step from a state to be stopped by a fault. -/
def FaultsWith (p : Program) (s : State) : Fault → Prop
  | .dispatch =>
    s.opcode? p = none ∨
      ∃ op, s.opcode? p = some (.operand op) ∧ p.fetch (s.ip + 1) = none
  | .binaryOp =>
    ∃ op, s.opcode? p = some (.plain (.binary op)) ∧
      (s.depth < 2 ∨ op = .div ∧ ∃ right ∈ s.stack.head?, right == 0)
  | .unaryOp => s.opcode? p = some (.plain .not) ∧ s.depth = 0
  | .stackOp =>
    (∃ op, (op = .pop ∨ op = .dup) ∧ s.opcode? p = some (.plain op) ∧ s.depth = 0) ∨
    (∃ op, (op = .jif ∨ op = .store) ∧ s.opcode? p = some (.operand op) ∧
      p.fetch (s.ip + 1) ≠ none ∧ s.depth = 0) ∨
    s.opcode? p = some (.plain .ret) ∧ s.callDepth = 0

def asked (p : Program) (s : State) : Nat :=
  if (s.opcode? p).any Opcode.hasOperand then 2 else 1

theorem opcode?_eq (p : Program) (s : State) : s.opcode? p = (p.item? s.ip).bind Item.opcode? := by
  rw [opcode?, item?]
  cases p.fetch s.ip <;> simp

theorem opcode?_of_item? {item : Item} (h : p.item? s.ip = some item) :
    s.opcode? p = item.opcode? := by
  rw [opcode?_eq, h, Option.bind_some]

theorem opcode?_of_none (h : p.item? s.ip = none) : s.opcode? p = none := by
  rw [opcode?_eq, h, Option.bind_none]

theorem faultsWith_of_instr {i : Instr} (small : p.size < 2 ^ 60)
    (hi : p.item? s.ip = some (.instr i)) : s.FaultsWith p fault ↔ i.refusal s = some fault := by
  have hop : s.opcode? p = some i.opcode := opcode?_of_item? hi
  rw [Instr.refusal_eq_some_iff]
  cases i with
  | plain op =>
    cases fault with
    | dispatch => simp [FaultsWith, hop, Instr.opcode]
    | binaryOp => simp [FaultsWith, hop, Instr.opcode, BinaryOp.refuses_iff, depth, and_comm]
    | unaryOp => simp [FaultsWith, hop, Instr.opcode, and_comm]
    | stackOp => simp [FaultsWith, hop, Instr.opcode, ← or_and_right, and_comm]
  | operand op value =>
    have hvalue : p.fetch (s.ip + 1) = some value := by
      rw [← next_eq_add_one small hi]
      exact (fetch_of_item? hi).2
    cases fault with
    | stackOp => simp [FaultsWith, hop, hvalue, Instr.opcode, ← or_and_right, exists_or, and_comm]
    | dispatch | binaryOp | unaryOp => simp [FaultsWith, hop, hvalue, Instr.opcode]

theorem faultsWith_of_incomplete (small : p.size < 2 ^ 60)
    (incomplete : ∀ i, p.item? s.ip ≠ some (.instr i)) :
    s.FaultsWith p fault ↔ fault = .dispatch := by
  rcases hi : p.item? s.ip with _ | (i | op | w)
  · have hop := opcode?_of_none hi
    cases fault <;> simp [FaultsWith, hop]
  · exact absurd hi (incomplete i)
  · have hop : s.opcode? p = some (.operand op) := opcode?_of_item? hi
    have missing : p.fetch (s.ip + 1) = none := by
      rw [← next_eq_add_one small hi]
      exact (fetch_of_item? hi).2
    cases fault <;> simp [FaultsWith, hop, missing]
  · have hop : s.opcode? p = none := opcode?_of_item? hi
    cases fault <;> simp [FaultsWith, hop]

-- ---------------------------------------------------------------------------
-- The fault of a step
-- ---------------------------------------------------------------------------

theorem step_fault_iff (small : p.size < 2 ^ 60) (hr : s.isHalted = false) :
    (s.step p).fault? = some fault ↔ s.FaultsWith p fault := by
  by_cases complete : ∃ i, p.item? s.ip = some (.instr i)
  · obtain ⟨i, hi⟩ := complete
    have running : { s with ip := i.opcode.after s.ip }.fault? = none := fault?_eq_none hr
    rw [faultsWith_of_instr small hi, step_of_instr hr hi, fault?_execute running]
    rfl
  · have incomplete := not_exists.1 complete
    have dispatch := (step_fault_dispatch_iff hr).2 incomplete
    rw [faultsWith_of_incomplete small incomplete, dispatch, Option.some.injEq, eq_comm]

def behind (p : Program) (s : State) : Word :=
  match s.opcode? p with
  | some op => op.after s.ip
  | none => s.ip.next

theorem toInt_behind (p : Program) (s : State) :
    (s.behind p).toInt = min (s.ip.toInt + s.asked p) Int64.maxValue.toInt := by
  rw [behind, asked, Int64.toInt_maxValue]
  rcases s.opcode? p with _ | op | op
  · simp [Word.toInt_next]
  · simp [Opcode.after, Opcode.hasOperand, Word.toInt_next]
  · simp only [Opcode.after, Opcode.hasOperand, Word.toInt_next, Option.any_some, if_true]
    omega

/-- All that a step changes when it records a fault. -/
theorem step_of_fault (hr : s.isHalted = false) (h : (s.step p).fault? = some fault) :
    s.step p =
      { s with ip := s.behind p, stack := s.stack.drop fault.consumes }.stop fault := by
  rcases hi : p.item? s.ip with _ | (i | op | w)
  · rw [step_of_none hr hi] at h ⊢
    cases h
    rw [behind, opcode?_of_none hi]
    rfl
  · have running : { s with ip := i.opcode.after s.ip }.fault? = none := fault?_eq_none hr
    rw [step_of_instr hr hi] at h ⊢
    rw [fault?_execute running] at h
    rw [execute_of_refusal h, behind, opcode?_of_item? hi]
    rfl
  · rw [step_of_truncated hr hi] at h ⊢
    cases h
    rw [behind, opcode?_of_item? hi]
    rfl
  · rw [step_of_unknown hr hi] at h ⊢
    cases h
    rw [behind, opcode?_of_item? hi]
    rfl

theorem consumes_eq_ite (fault : Fault) : fault.consumes = if fault = .binaryOp then 2 else 0 := by
  cases fault <;> rfl

/-- The step from a running state records the fault whose condition holds, and
none if none does. It leaves the variables and the callers as they were, and the
operands as well unless a binary operation took up to two of them; the address
has moved past all words asked for, whether they were there or not. -/
theorem step_faults (small : p.size < 2 ^ 60) (hr : s.isHalted = false) :
    (∀ fault, (s.step p).fault? = some fault ↔ s.FaultsWith p fault) ∧
    ((s.step p).fault? = none ↔ ∀ fault, ¬ s.FaultsWith p fault) ∧
    ∀ fault, (s.step p).fault? = some fault →
      (s.step p).isHalted = true ∧ (s.step p).frame = s.frame ∧
      (s.step p).callers = s.callers ∧
      (s.step p).stack = s.stack.drop (if fault = .binaryOp then min 2 s.depth else 0) ∧
      (s.step p).ip.toInt = min (s.ip.toInt + s.asked p) Int64.maxValue.toInt := by
  refine ⟨fun fault => step_fault_iff small hr, ?_, fun fault h => ?_⟩
  · simp only [← step_fault_iff small hr, Option.eq_none_iff_forall_ne_some, ne_eq]
  · rw [step_of_fault hr h]
    refine ⟨rfl, rfl, rfl, ?_, toInt_behind p s⟩
    show s.stack.drop fault.consumes = _
    rw [consumes_eq_ite, List.drop_eq_drop_iff, depth]
    split <;> omega

def divThenCutOff : Program := .ofList [7, 15]

def atDiv : State :=
  { initial divThenCutOff with stack := [-0.0, 6, 2], callers := [⟨7, .empty⟩] }

def atCutOff : State := { initial divThenCutOff with ip := 1, callers := [⟨7, .empty⟩] }

theorem divThenCutOff_faults :
    atDiv.isHalted = false ∧ atDiv.FaultsWith divThenCutOff .binaryOp ∧
      (atDiv.step divThenCutOff).fault? = some .binaryOp ∧
      (atDiv.step divThenCutOff).stack = [2] ∧
      (atDiv.step divThenCutOff).ip.toInt = 1 ∧
    atCutOff.isHalted = false ∧ atCutOff.FaultsWith divThenCutOff .dispatch ∧
      (atCutOff.step divThenCutOff).fault? = some .dispatch ∧
      (atCutOff.step divThenCutOff).ip.toInt = 3 ∧
      (atCutOff.step divThenCutOff).callers = atCutOff.callers := by
  have dividing : atDiv.isHalted = false := by decide
  have zero : atDiv.FaultsWith divThenCutOff .binaryOp :=
    ⟨.div, by decide, .inr ⟨rfl, -0.0, rfl, by decide +kernel⟩⟩
  obtain ⟨condition, -, left⟩ := step_faults (p := divThenCutOff) (by decide) dividing
  have divided := (condition .binaryOp).2 zero
  obtain ⟨-, -, -, stack, behindDiv⟩ := left .binaryOp divided
  -- nothing is on the stack either, but the missing operand is found first
  have jumping : atCutOff.isHalted = false := by decide
  have missing : atCutOff.FaultsWith divThenCutOff .dispatch :=
    .inr ⟨.jif, by decide, by decide⟩
  obtain ⟨condition, -, left⟩ := step_faults (p := divThenCutOff) (by decide) jumping
  have cutOff := (condition .dispatch).2 missing
  obtain ⟨-, -, callers, -, behindJif⟩ := left .dispatch cutOff
  exact ⟨dividing, zero, divided, stack, behindDiv, jumping, missing, cutOff, behindJif, callers⟩

end StackMachine.State
