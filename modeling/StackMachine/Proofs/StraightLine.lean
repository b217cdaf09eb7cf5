import StackMachine.Proofs.Addresses
import StackMachine.Proofs.Sweep

/-!
# Straight-line programs

A program whose listing shows no jumps and no calls is run through line by line,
as it is listed, until HALT or a fault (`runs_along_listing`). Operands may be
any words, also the codes of jumps: no run gets to them. Without calls nothing
waits for a return, so RET ends the run as well.
-/

namespace StackMachine

open Program

namespace Program

variable {p : Program} {i j : Nat} {line : Line}

/-- No line of the listing holds a jump or a call, whether or not its operand is there. -/
def StraightLine (p : Program) : Prop :=
  ∀ line ∈ p.lines, ∀ op : OperandOp, op.isTransfer = true → p.words[line.index]? ≠ some op.code

-- ---------------------------------------------------------------------------
-- Where lines start
-- ---------------------------------------------------------------------------

/-- The index of a line of the listing, counted from zero. Behind the last line
the program ends. -/
def lineStart (p : Program) (i : Nat) : Nat :=
  match p.lines[i]? with
  | some line => line.index
  | none => p.size

theorem lineStart_of_line (h : p.lines[i]? = some line) : p.lineStart i = line.index := by
  rw [lineStart, h]

theorem lineStart_of_none (h : p.lines[i]? = none) : p.lineStart i = p.size := by
  rw [lineStart, h]

theorem index_lt_size (h : line ∈ p.lines) : line.index < p.size := by
  obtain ⟨w, hw, -⟩ := read_of_mem_lines h
  exact (Array.getElem?_eq_some_iff.1 hw).1

theorem lineStart_le_size (p : Program) (i : Nat) : p.lineStart i ≤ p.size := by
  cases h : p.lines[i]? with
  | none => exact Nat.le_of_eq (lineStart_of_none h)
  | some line =>
    have inside := index_lt_size (List.mem_of_getElem? h)
    rw [lineStart_of_line h]
    exact Nat.le_of_lt inside

theorem lineStart_succ (h : p.lines[i]? = some line) :
    p.lineStart (i + 1) = line.index + line.item.size := by
  obtain ⟨hi, rfl⟩ := List.getElem?_eq_some_iff.1 h
  obtain ⟨after, hafter⟩ : ∃ after, after = p.lines.drop (i + 1) := ⟨_, rfl⟩
  have split : p.lines = p.lines.take i ++ p.lines[i] :: after := by simp [hafter]
  have next := lines_next split
  rw [lineStart, ← List.head?_drop, ← hafter]
  cases after <;> exact next.symm

theorem lineStart_zero (p : Program) : p.lineStart 0 = 0 := by
  cases h : p.lines with
  | nil =>
    have words : p.words.toList = [] := Line.sweep_eq_nil h
    rw [lineStart_of_none (by simp [h]), size, ← Array.length_toList, words, List.length_nil]
  | cons line rest =>
    have first : p.lines[0]? = some line := by simp [h]
    have split : p.lines = [] ++ line :: rest := h
    rw [lineStart_of_line first, index_of_lines split]
    rfl

theorem lineStart_lt (h : i < j) (inside : j ≤ p.lines.length) : p.lineStart i < p.lineStart j := by
  induction j with
  | zero => cases h
  | succ j ih =>
    have line : p.lines[j]? = some p.lines[j] := List.getElem?_eq_getElem inside
    have here := lineStart_of_line line
    have behind := lineStart_succ line
    have wide := p.lines[j].item.size_pos
    rcases Nat.lt_succ_iff_lt_or_eq.1 h with h | rfl
    · have before := ih h (Nat.le_of_succ_le inside)
      omega
    · omega

theorem exists_line_of_item? {addr : Word} {item : Item} (h : p.item? addr = some item)
    (here : addr.toInt = p.lineStart i) : ∃ line, p.lines[i]? = some line := by
  have inside := lt_size_of_item? h
  cases hl : p.lines[i]? with
  | some line => exact ⟨line, rfl⟩
  | none =>
    rw [lineStart_of_none hl] at here
    omega

theorem StraightLine.not_transfer (straight : p.StraightLine) (small : p.size < 2 ^ 60)
    {addr : Word} {op : OperandOp} {value : Word}
    (h : p.item? addr = some (.instr (.operand op value))) (here : addr.toInt = p.lineStart i) :
    op.isTransfer = false := by
  obtain ⟨line, hl⟩ := exists_line_of_item? h here
  rw [lineStart_of_line hl] at here
  have hop := (words_of_operand small here h).1
  by_contra transfer
  exact straight line (List.mem_of_getElem? hl) op (by simpa using transfer) hop

end Program

namespace State

variable {p : Program} {s : State} {n : Nat}

-- ---------------------------------------------------------------------------
-- Where a run ends
-- ---------------------------------------------------------------------------

theorem ip_step_of_halting (hr : s.isHalted = false) (halted : (s.step p).isHalted = true) :
    (s.step p).ip = s.behind p := by
  cases hf : (s.step p).fault? with
  | some fault =>
    rw [step_of_fault hr hf]
    rfl
  | none =>
    obtain ⟨i, hi, hstep⟩ := exists_execute_of_step (p := p) hr (by simp [hf])
    have moved : { s with ip := i.opcode.after s.ip }.isHalted = false := hr
    rw [hstep] at halted ⊢
    rw [ip_execute_of_isHalted moved halted, behind, opcode?_of_item? hi]
    rfl

theorem asked_eq_one_or (p : Program) (s : State) :
    s.asked p = 1 ∨ s.asked p = 2 ∧ s.ip.toInt < p.size := by
  unfold asked
  split
  · next operand =>
    cases hw : p.fetch s.ip with
    | none => simp [opcode?, hw] at operand
    | some w => exact .inr ⟨rfl, (lt_size_of_fetch hw).2⟩
  · exact .inl rfl

theorem bounds_of_halting (small : p.size < 2 ^ 60) (hr : s.isHalted = false)
    (halted : (s.step p).isHalted = true) (nonneg : 0 ≤ s.ip.toInt) (le : s.ip.toInt ≤ p.size) :
    1 ≤ (s.step p).ip.toInt ∧ (s.step p).ip.toInt ≤ p.size + 1 := by
  have asked := asked_eq_one_or p s
  rw [ip_step_of_halting hr halted, toInt_behind, Int64.toInt_maxValue]
  omega

-- ---------------------------------------------------------------------------
-- Line by line
-- ---------------------------------------------------------------------------

structure Along (p : Program) (n : Nat) (s : State) : Prop where
  alone : s.callers = []
  running : s.isHalted = false → n ≤ p.lines.length ∧ s.ip.toInt = p.lineStart n
  halted : s.isHalted = true → 1 ≤ s.ip.toInt ∧ s.ip.toInt ≤ p.size + 1

theorem along_initial (nonempty : p.isEmpty = false) : Along p 0 (initial p) where
  alone := rfl
  running _ := ⟨Nat.zero_le _, by simp [initial, lineStart_zero]⟩
  halted h := by simp [initial, isHalted, nonempty] at h

theorem along_step (small : p.size < 2 ^ 60) (straight : p.StraightLine) (h : Along p n s) :
    Along p (n + 1) (s.step p) := by
  cases hr : s.isHalted with
  | true =>
    rw [step_of_isHalted p hr]
    exact ⟨h.alone, fun running => (nomatch hr.symm.trans running), h.halted⟩
  | false =>
    have here := (h.running hr).2
    have le := p.lineStart_le_size n
    have bounds := fun halted =>
      bounds_of_halting (p := p) small hr halted (by omega) (by omega)
    cases step_control (p := p) hr with
    | stopped halted _ callers =>
      exact ⟨callers.trans h.alone, fun running => (nomatch halted.symm.trans running), bounds⟩
    | @continued i item _ _ ip callers =>
      obtain ⟨line, hl⟩ := exists_line_of_item? item here
      have hline := lineStart_of_line hl
      have shown := item?_of_mem_lines small (List.mem_of_getElem? hl) (hline ▸ here)
      have hsize : i.size = line.item.size :=
        congrArg Item.size (Option.some.inj (item.symm.trans shown))
      refine ⟨callers.trans h.alone, fun _ => ⟨?_, ?_⟩, bounds⟩
      · exact (List.getElem?_eq_some_iff.1 hl).1
      · have hafter := toInt_after small item
        have hnext := lineStart_succ hl
        rw [ip]
        omega
    -- what is read at the address is on a line, so it transfers no control
    | jumped item transfer =>
      exact nomatch transfer.symm.trans (straight.not_transfer small item here)
    | called item => exact nomatch straight.not_transfer small item here
    | returned _ waiting => exact nomatch waiting.symm.trans h.alone

theorem along_run (small : p.size < 2 ^ 60) (nonempty : p.isEmpty = false)
    (straight : p.StraightLine) (n : Nat) : Along p n ((initial p).run p n) := by
  induction n with
  | zero => exact along_initial nonempty
  | succ n ih =>
    rw [run_succ_last]
    exact along_step small straight ih

-- ---------------------------------------------------------------------------
-- Runs
-- ---------------------------------------------------------------------------

/-- As long as it goes on, a straight-line program executes the lines of its
listing one after the other, none of them twice. It has halted at the latest on
the step behind the last line, and not far behind the end of the program. -/
theorem runs_along_listing (small : p.size < 2 ^ 60) (nonempty : p.isEmpty = false)
    (straight : p.StraightLine) :
    (∀ i line, p.lines[i]? = some line → ((initial p).run p i).isHalted = false →
      ((initial p).run p i).ip.toInt = line.index) ∧
    (∀ i j, i < j → ((initial p).run p j).isHalted = false →
      ((initial p).run p i).ip.toInt < ((initial p).run p j).ip.toInt) ∧
    ∃ n ≤ p.lines.length + 1, ((initial p).run p n).isHalted = true ∧
      (∀ m ≥ n, (initial p).run p m = (initial p).run p n) ∧
      1 ≤ ((initial p).run p n).ip.toInt ∧ ((initial p).run p n).ip.toInt ≤ p.size + 1 := by
  have along := along_run small nonempty straight
  refine ⟨fun i line hl hr => ?_, fun i j hij hr => ?_, p.lines.length + 1, Nat.le_refl _, ?_⟩
  · rw [((along i).running hr).2, lineStart_of_line hl]
  · have earlier := (along i).running (running_of_le hr (Nat.le_of_lt hij))
    have later := (along j).running hr
    have ahead := lineStart_lt (p := p) hij later.1
    omega
  · have halted : ((initial p).run p (p.lines.length + 1)).isHalted = true := by
      by_contra hr
      have within := ((along (p.lines.length + 1)).running (by simpa using hr)).1
      omega
    exact ⟨halted, fun m hm => run_eq_of_isHalted halted hm, (along _).halted halted⟩

def cutOffStore : Program := .ofList [1, 14, 3, 17]

theorem cutOffStore_straight : cutOffStore.StraightLine := by
  have shown : ∀ line ∈ cutOffStore.lines,
      cutOffStore.words[line.index]? ∈ [some 1, some 3, some OperandOp.store.code] := by decide
  intro line hl op transfer hop
  have here := shown line hl
  rw [hop] at here
  cases op with
  | jmp | jif | call => exact absurd here (by decide)
  | push | load | store => cases transfer

theorem cutOffStore_runs :
    ((initial cutOffStore).run cutOffStore 2).isHalted = false ∧
      ((initial cutOffStore).run cutOffStore 2).ip.toInt = 3 ∧
      ((initial cutOffStore).run cutOffStore 1).ip.toInt <
        ((initial cutOffStore).run cutOffStore 2).ip.toInt ∧
      ∃ n ≤ 4, ((initial cutOffStore).run cutOffStore n).isHalted = true ∧
        ((initial cutOffStore).run cutOffStore n).ip.toInt ≤ 5 := by
  have running : ((initial cutOffStore).run cutOffStore 2).isHalted = false := by decide
  obtain ⟨along, ahead, n, hn, halted, -, -, le⟩ :=
    runs_along_listing (p := cutOffStore) (by decide) (by decide) cutOffStore_straight
  have line : cutOffStore.lines[2]? = some ⟨3, .truncated .store⟩ := by decide
  exact ⟨running, along 2 _ line running, ahead 1 2 (by decide) running, n, hn, halted, le⟩

end State

end StackMachine
