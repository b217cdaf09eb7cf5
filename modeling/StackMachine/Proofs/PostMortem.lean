import StackMachine.Proofs.Transition

/-!
# Why a run has ended

A halted state shows what ended its run: the instruction before its address,
with the operands that are left, accounts for the fault or for there being none
(`explained_of_halted`). The state keeps no record of the instruction. It is
found by looking back from the address, which has moved past everything that
was read, also where there was nothing to read.
-/

namespace StackMachine

namespace Program

variable {p : Program} {addr : Word} {item : Item}

-- ---------------------------------------------------------------------------
-- Looking back
-- ---------------------------------------------------------------------------

theorem ne_maxValue (small : p.size < 2 ^ 60) (h : addr.toInt ≤ p.size) :
    addr ≠ Int64.maxValue := by
  rintro rfl
  rw [Int64.toInt_maxValue] at h
  omega

theorem next_eq_add_one (small : p.size < 2 ^ 60) (h : p.item? addr = some item) :
    addr.next = addr + 1 :=
  if_neg (ne_maxValue small (lt_size_of_item? h).2.le)

theorem next_next_eq_add_one (small : p.size < 2 ^ 60) (h : p.item? addr = some item) :
    addr.next.next = addr.next + 1 := by
  have inside := lt_size_of_item? h
  have hnext := toInt_next small h
  exact if_neg (ne_maxValue small (by omega))

theorem fetch_after_sub_one {op : PlainOp} (small : p.size < 2 ^ 60)
    (h : p.item? addr = some (.instr (.plain op))) :
    p.fetch ((Opcode.plain op).after addr - 1) = some op.code := by
  show p.fetch (addr.next - 1) = _
  rw [next_eq_add_one small h, Int64.add_sub_cancel]
  exact fetch_of_item? h

theorem fetch_after_sub_two {op : OperandOp} {value : Word} (small : p.size < 2 ^ 60)
    (h : p.item? addr = some (.instr (.operand op value))) :
    p.fetch ((Opcode.operand op).after addr - 2) = some op.code := by
  show p.fetch (addr.next.next - 2) = _
  rw [next_next_eq_add_one small h, next_eq_add_one small h, Int64.add_assoc]
  rw [show (1 : Word) + 1 = 2 from rfl, Int64.add_sub_cancel]
  exact (fetch_of_item? h).1

/-- The highest word is its own successor, but the word before it is out of
reach as well. -/
theorem fetch_next_sub_one_of_none (small : p.size < 2 ^ 60) (h : p.item? addr = none) :
    p.fetch (addr.next - 1) = none := by
  unfold Word.next
  split
  · next hmax =>
    have hlast : (Int64.maxValue - 1).toInt = 0x7FFFFFFFFFFFFFFE := by decide
    rw [hmax, fetch_eq_none_iff, hlast]
    omega
  · rw [Int64.add_sub_cancel]
    simpa [item?] using h

end Program

open Program

namespace State

variable {p : Program} {s : State}

/-- What accounts for the end of a run: the instruction last read, found behind
the address, and the operands or callers that it missed. -/
def Explained (p : Program) (s : State) : Prop :=
  match s.fault? with
  | none =>
    1 ≤ s.ip.toInt ∧ s.ip.toInt ≤ p.size ∧ p.fetch (s.ip - 1) = some PlainOp.halt.code
  | some .dispatch => (p.fetch (s.ip - 1)).bind Opcode.ofWord? = none
  | some .unaryOp => p.fetch (s.ip - 1) = some PlainOp.not.code ∧ s.depth = 0
  | some .binaryOp =>
    ∃ op : BinaryOp, p.fetch (s.ip - 1) = some op.code ∧ (s.depth = 0 ∨ op = .div)
  | some .stackOp =>
    (∃ op, (op = PlainOp.pop ∨ op = PlainOp.dup) ∧ p.fetch (s.ip - 1) = some op.code ∧
      s.depth = 0) ∨
    (∃ op, (op = OperandOp.jif ∨ op = OperandOp.store) ∧ p.fetch (s.ip - 2) = some op.code ∧
      s.depth = 0) ∨
    p.fetch (s.ip - 1) = some PlainOp.ret.code ∧ s.callDepth = 0

-- ---------------------------------------------------------------------------
-- One step
-- ---------------------------------------------------------------------------

theorem explained_refusal {i : Instr} {fault : Fault} (small : p.size < 2 ^ 60)
    (hi : p.item? s.ip = some (.instr i)) (h : i.refusal s = some fault) :
    ({ s with ip := i.opcode.after s.ip, stack := s.stack.drop fault.consumes }.stop
      fault).Explained p := by
  rw [Instr.refusal_eq_some_iff] at h
  cases fault with
  | dispatch => exact h.elim
  | unaryOp =>
    obtain ⟨hs, rfl⟩ := h
    exact ⟨fetch_after_sub_one small hi, hs⟩
  | binaryOp =>
    obtain ⟨op, hs, rfl⟩ := h
    refine ⟨op, fetch_after_sub_one small hi, ?_⟩
    rcases BinaryOp.refuses_iff.1 hs with short | ⟨hdiv, -⟩
    · exact .inl (List.length_eq_zero_iff.2 (List.drop_eq_nil_of_le (Nat.le_of_lt short)))
    · exact .inr hdiv
  | stackOp =>
    rcases h with ⟨hs, rfl | rfl | ⟨value, rfl | rfl⟩⟩ | ⟨hc, rfl⟩
    · exact .inl ⟨.pop, .inl rfl, fetch_after_sub_one small hi, hs⟩
    · exact .inl ⟨.dup, .inr rfl, fetch_after_sub_one small hi, hs⟩
    · exact .inr (.inl ⟨.jif, .inl rfl, fetch_after_sub_two small hi, hs⟩)
    · exact .inr (.inl ⟨.store, .inr rfl, fetch_after_sub_two small hi, hs⟩)
    · exact .inr (.inr ⟨fetch_after_sub_one small hi, hc⟩)

theorem explained_step (small : p.size < 2 ^ 60) (hr : s.isHalted = false)
    (halted : (s.step p).isHalted = true) : (s.step p).Explained p := by
  rcases hi : p.item? s.ip with _ | (i | op | w)
  · rw [step_of_none hr hi]
    show (p.fetch (s.ip.next - 1)).bind Opcode.ofWord? = none
    rw [fetch_next_sub_one_of_none small hi]
    rfl
  · rw [step_of_instr hr hi] at halted ⊢
    have running : { s with ip := i.opcode.after s.ip }.isHalted = false := hr
    cases hf : i.refusal { s with ip := i.opcode.after s.ip } with
    | some fault =>
      rw [execute_of_refusal hf]
      exact explained_refusal small hi hf
    | none =>
      obtain rfl := ((executed hf).isHalted_iff running).1 halted
      have hafter := toInt_after small hi
      have inside := lt_size_of_item? hi
      refine ⟨?_, after_le_size small hi, fetch_after_sub_one small hi⟩
      show 1 ≤ ((Instr.plain .halt).opcode.after s.ip).toInt
      simp only [Instr.size] at hafter
      omega
  · rw [step_of_truncated hr hi]
    show (p.fetch (s.ip.next.next - 1)).bind Opcode.ofWord? = none
    obtain ⟨-, missing⟩ := fetch_of_item? hi
    rw [next_next_eq_add_one small hi, Int64.add_sub_cancel, missing]
    rfl
  · rw [step_of_unknown hr hi]
    show (p.fetch (s.ip.next - 1)).bind Opcode.ofWord? = none
    obtain ⟨hw, hop⟩ := fetch_of_item? hi
    rw [next_eq_add_one small hi, Int64.add_sub_cancel, hw]
    exact hop

-- ---------------------------------------------------------------------------
-- Runs
-- ---------------------------------------------------------------------------

/-- Whatever a program comes to, a fault means that it has halted, and where it
has halted the state tells why and stays as it is. -/
theorem explained_of_halted (small : p.size < 2 ^ 60) (nonempty : p.isEmpty = false)
    (reached : Reachable p s) :
    (s.fault? ≠ none → s.isHalted = true) ∧
      (s.isHalted = true → s.Explained p ∧ ∀ n, s.run p n = s) := by
  refine ⟨fun faulted => ?_, fun halted => ⟨?_, fun n => run_of_isHalted p n halted⟩⟩
  · obtain ⟨fault, hf⟩ := Option.ne_none_iff_exists'.1 faulted
    exact isHalted_of_fault? hf
  · have explained : s.isHalted = true → s.Explained p := by
      refine reachable_inv (fun s => s.isHalted = true → s.Explained p) ?_ ?_ reached
      · intro h
        simp [initial, isHalted, nonempty] at h
      · intro s hs h
        cases hr : s.isHalted with
        | true =>
          rw [step_of_isHalted p hr]
          exact hs hr
        | false => exact explained_step small hr h
    exact explained halted

def division : Program := .ofList [18, 3, 0, 1, 1, 1, 0, 3, 7]

theorem division_explained :
    ((initial division).run division 5).fault? = some .binaryOp ∧
      (∃ op : BinaryOp,
        division.fetch (((initial division).run division 5).ip - 1) = some op.code ∧
          (((initial division).run division 5).depth = 0 ∨ op = .div)) ∧
      ((initial division).run division 5).run division 95 = (initial division).run division 5 := by
  have faulted : ((initial division).run division 5).fault? = some .binaryOp := by decide +kernel
  obtain ⟨halts, explained⟩ :=
    explained_of_halted (p := division) (by decide) (by decide) ⟨5, rfl⟩
  obtain ⟨why, stays⟩ := explained (halts (by simp [faulted]))
  rw [Explained, faulted] at why
  exact ⟨faulted, why, stays 95⟩

end State

end StackMachine
