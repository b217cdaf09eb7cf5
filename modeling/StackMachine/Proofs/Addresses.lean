import StackMachine.Proofs.Faults
import StackMachine.Proofs.Unread

/-!
# Addresses are exact

The address after the highest word is that word again, so a run that moved on
from there would be at a wrong address. It never gets so far: programs end long
before, a step reads nothing at the highest word and stops there, and the
addresses that calls leave to return to lie inside the program, each right
behind a call (`addresses_exact`).
-/

namespace StackMachine

open Program

-- ---------------------------------------------------------------------------
-- Return addresses
-- ---------------------------------------------------------------------------

structure Program.BehindCall (p : Program) (addr : Word) : Prop where
  two_le : 2 ≤ addr.toInt
  le_size : addr.toInt ≤ p.size
  call : p.fetch (addr - 2) = some OperandOp.call.code
  target : (p.fetch (addr - 1)).isSome = true

namespace State

variable {p : Program} {s : State} {addr : Word}

theorem behindCall_after {value : Word} (small : p.size < 2 ^ 60)
    (h : p.item? addr = some (.instr (.operand .call value))) :
    p.BehindCall ((Opcode.operand .call).after addr) := by
  have inside := lt_size_of_item? h
  have hafter : ((Opcode.operand .call).after addr).toInt = addr.toInt + 2 := by
    simpa [Instr.size, Instr.opcode] using toInt_after small h
  have hsize := after_le_size small h
  refine ⟨by omega, hsize, fetch_after_sub_two small h, ?_⟩
  show (p.fetch (addr.next.next - 1)).isSome = true
  rw [next_next_eq_add_one small h, Int64.add_sub_cancel, (fetch_of_item? h).2]
  rfl

theorem confines_behindCall (small : p.size < 2 ^ 60) :
    Confines p (fun _ => True) p.BehindCall where
  start := trivial
  next _ _ _ := trivial
  target _ _ _ := trivial
  link _ h := behindCall_after small h
  back _ := trivial

theorem behindCall_of_reachable (small : p.size < 2 ^ 60) (reached : Reachable p s) :
    ∀ caller ∈ s.callers, p.BehindCall caller.returnAddress :=
  (reached.within (confines_behindCall small)).2

-- ---------------------------------------------------------------------------
-- Moving on
-- ---------------------------------------------------------------------------

theorem reads_eq (hr : s.isHalted = false) :
    s.reads p = if (s.opcode? p).any Opcode.hasOperand then [s.ip, s.ip.next] else [s.ip] := by
  unfold reads opcode?
  rcases (p.fetch s.ip).bind Opcode.ofWord? with _ | op | op <;> simp [hr, Opcode.hasOperand]

theorem mem_reads_iff : addr ∈ s.reads p ↔ s.isHalted = false ∧
    (addr = s.ip ∨ addr = s.ip.next ∧ (s.opcode? p).any Opcode.hasOperand = true) := by
  cases hr : s.isHalted with
  | true => simp [reads, hr]
  | false =>
    rw [reads_eq hr]
    split <;> simp_all

/-- A step moves on from one address that it reads to the next, beginning at its
own and ending behind all words it asks for. -/
structure MovesAlong (p : Program) (s : State) : Prop where
  first : (s.reads p).head? = some s.ip
  each : (s.reads p).IsChain fun addr following => following = addr.next
  last : (s.reads p).getLast?.map Word.next = some (s.behind p)

theorem movesAlong (hr : s.isHalted = false) : s.MovesAlong p := by
  constructor <;> rw [reads_eq hr]
  · split <;> rfl
  · split <;> simp
  · rw [behind]
    rcases s.opcode? p with _ | op | op <;> rfl

theorem ip_of_reads_saturated (small : p.size < 2 ^ 60) (h : addr ∈ s.reads p)
    (saturated : addr.next.toInt ≠ addr.toInt + 1) : s.ip = Int64.maxValue := by
  have hmax := Int64.toInt_maxValue
  have highest : addr = Int64.maxValue := by
    rw [Word.toInt_next] at saturated
    have hlt := addr.toInt_lt
    exact Int64.toInt_inj.1 (by omega)
  obtain ⟨-, rfl | ⟨rfl, operand⟩⟩ := mem_reads_iff.1 h
  · exact highest
  · cases hw : p.fetch s.ip with
    | none => simp [opcode?, hw] at operand
    | some w =>
      have inside := lt_size_of_fetch hw
      have hnext := s.ip.toInt_next
      rw [highest, hmax] at hnext
      omega

theorem step_of_highest (small : p.size < 2 ^ 60) (hr : s.isHalted = false)
    (h : s.ip = Int64.maxValue) :
    p.fetch s.ip = none ∧ (s.step p).isHalted = true ∧ (s.step p).fault? = some .dispatch := by
  have nothing : p.fetch s.ip = none := by
    rw [fetch_eq_none_iff, h, Int64.toInt_maxValue]
    omega
  have hi : p.item? s.ip = none := by rw [item?, nothing, Option.map_none]
  rw [step_of_none hr hi]
  exact ⟨nothing, rfl, rfl⟩

-- ---------------------------------------------------------------------------
-- Where a step goes
-- ---------------------------------------------------------------------------

/-- Where a step that reads a complete instruction leaves the address: behind the
instruction if it goes on there or stops the run, else at its operand or, for a
return, behind the call that is returned from. -/
inductive Lands (p : Program) (s t : State) : Prop
  | behind {i : Instr} (item : p.item? s.ip = some (.instr i))
      (goes : i.fallsThrough = true ∨ t.isHalted = true) (ip : t.ip.toInt = s.ip.toInt + i.size)
  | target {op : OperandOp} {value : Word}
      (item : p.item? s.ip = some (.instr (.operand op value))) (transfer : op.isTransfer = true)
      (ip : t.ip = value)
  | back {caller : Caller} {rest : List Caller}
      (item : p.item? s.ip = some (.instr (.plain .ret))) (waiting : s.callers = caller :: rest)
      (ip : t.ip = caller.returnAddress) (call : p.BehindCall t.ip)

theorem ip_execute_of_isHalted {i : Instr} (hr : s.isHalted = false)
    (halted : (s.execute i).isHalted = true) : (s.execute i).ip = s.ip := by
  cases hf : i.refusal s with
  | some fault =>
    rw [execute_of_refusal hf]
    rfl
  | none =>
    obtain rfl := ((executed hf).isHalted_iff hr).1 halted
    rfl

theorem step_lands (small : p.size < 2 ^ 60)
    (links : ∀ caller ∈ s.callers, p.BehindCall caller.returnAddress) {i : Instr}
    (hr : s.isHalted = false) (hi : p.item? s.ip = some (.instr i)) : Lands p s (s.step p) := by
  cases step_control (p := p) hr with
  | stopped halted =>
    have moved : { s with ip := i.opcode.after s.ip }.isHalted = false := hr
    rw [step_of_instr hr hi] at halted ⊢
    refine .behind hi (.inr halted) ?_
    rw [ip_execute_of_isHalted moved halted]
    exact toInt_after small hi
  | continued item falls _ ip => exact .behind item (.inl falls) (ip ▸ toInt_after small item)
  | jumped item transfer _ ip => exact .target item transfer ip
  | called item _ ip => exact .target item rfl ip
  | returned item waiting _ ip =>
    have waits := links _ (waiting ▸ List.mem_cons_self)
    exact .back item waiting ip (ip ▸ waits)

-- ---------------------------------------------------------------------------
-- Runs
-- ---------------------------------------------------------------------------

/-- In all that a program comes to, the waiting callers go on right behind a
call, and a step moves on exactly from every address it reads unless it is at
the highest word, where it finds nothing and stops. So a step that does not end
in a dispatch fault is taken inside the program and leads to the address meant. -/
theorem addresses_exact (small : p.size < 2 ^ 60) (reached : Reachable p s) :
    (∀ caller ∈ s.callers, p.BehindCall caller.returnAddress) ∧
    (s.isHalted = false → s.MovesAlong p) ∧
    ((s.step p).fault? ≠ some .dispatch →
      ∀ addr ∈ s.reads p, addr.next.toInt = addr.toInt + 1) ∧
    (∀ addr ∈ s.reads p, addr.next.toInt ≠ addr.toInt + 1 →
      s.ip = Int64.maxValue ∧ p.fetch s.ip = none ∧ (s.step p).isHalted = true ∧
        (s.step p).fault? = some .dispatch) ∧
    (s.isHalted = false → (s.step p).fault? ≠ some .dispatch →
      0 ≤ s.ip.toInt ∧ s.ip.toInt < p.size ∧ Lands p s (s.step p)) := by
  have links := behindCall_of_reachable small reached
  have stops : ∀ addr ∈ s.reads p, addr.next.toInt ≠ addr.toInt + 1 →
      s.ip = Int64.maxValue ∧ p.fetch s.ip = none ∧ (s.step p).isHalted = true ∧
        (s.step p).fault? = some .dispatch := by
    intro addr ha saturated
    have highest := ip_of_reads_saturated small ha saturated
    exact ⟨highest, step_of_highest small (mem_reads_iff.1 ha).1 highest⟩
  refine ⟨links, movesAlong, fun quiet addr ha => ?_, stops, fun hr quiet => ?_⟩
  · by_contra saturated
    exact quiet (stops addr ha saturated).2.2.2
  · obtain ⟨i, hi, -⟩ := exists_execute_of_step hr quiet
    obtain ⟨nonneg, lt⟩ := lt_size_of_item? hi
    exact ⟨nonneg, lt, step_lands small links hr hi⟩

def farJump : Program := .ofList [18, 2, 14, Int64.maxValue]

theorem farJump_stops :
    farJump.BehindCall 2 ∧
      ((initial farJump).run farJump 2).ip = Int64.maxValue ∧
      ((initial farJump).run farJump 3).fault? = some .dispatch := by
  obtain ⟨links, -, -, saturated, -⟩ :=
    addresses_exact (p := farJump) (s := (initial farJump).run farJump 2) (by decide) ⟨2, rfl⟩
  have read : Int64.maxValue ∈ ((initial farJump).run farJump 2).reads farJump := by decide +kernel
  obtain ⟨highest, -, -, stopped⟩ := saturated _ read (by decide)
  have waiting : ((initial farJump).run farJump 2).callers = [⟨2, .empty⟩] := by rfl
  exact ⟨links ⟨2, .empty⟩ (by simp [waiting]), highest, stopped⟩

end State

end StackMachine
