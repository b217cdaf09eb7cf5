import StackMachine.Proofs.Transition

/-!
# Expressions in postfix order

The code of an expression is the code of its operands, left before right, and
then its operator. Wherever it stands in a program, it computes the value of
the expression and puts it on top of the operands that are there, in one step
for each node; or, if a division has zero as its right operand, it stops there
with what was computed for the operators around it (`run_code`). There are no
short-circuits, so every operand is computed.
-/

namespace StackMachine

-- ---------------------------------------------------------------------------
-- Expressions
-- ---------------------------------------------------------------------------

/-- What an operator means on cells, also for zero as a divisor. -/
def BinaryOp.denote (op : BinaryOp) (left right : Cell) : Cell :=
  match op with
  | .add => left + right
  | .sub => left - right
  | .mul => left * right
  | .div => left / right
  | .and => if left != 0 && right != 0 then 1 else 0
  | .or => if left != 0 || right != 0 then 1 else 0
  | .eq => if left == right then 1 else 0
  | .gt => if left > right then 1 else 0
  | .gte => if left ≥ right then 1 else 0

/-- The machine computes what operators mean, but refuses to divide by zero. -/
theorem BinaryOp.apply_eq_ite (op : BinaryOp) (left right : Cell) :
    op.apply left right =
      if op = .div ∧ right == 0 then none else some (op.denote left right) := by
  cases op with
  | div => cases hz : right == 0 <;> simp [apply, denote, Cell.isZero, hz]
  | _ => simp [apply, denote, Cell.isZero, Cell.ofBool, Cell.isTrue, bne]

inductive Expr where
  | literal (value : Word)
  | slot (k : Word)
  | not (operand : Expr)
  | binary (op : BinaryOp) (left right : Expr)
  deriving DecidableEq, Repr

namespace Expr

def code : Expr → List Word
  | .literal value => (Instr.operand .push value).words
  | .slot k => (Instr.operand .load k).words
  | .not operand => operand.code ++ (Instr.plain .not).words
  | .binary op left right => left.code ++ right.code ++ (Instr.plain (.binary op)).words

def nodes : Expr → Nat
  | .literal _ | .slot _ => 1
  | .not operand => operand.nodes + 1
  | .binary _ left right => left.nodes + right.nodes + 1

def value (f : Frame) : Expr → Cell
  | .literal value => Float.ofInt value.toInt
  | .slot k => (f.toList.lookup k).getD 0
  | .not operand => if operand.value f == 0 then 1 else 0
  | .binary op left right => op.denote (left.value f) (right.value f)

def DividesByZero (f : Frame) : Expr → Prop
  | .literal _ | .slot _ => False
  | .not operand => operand.DividesByZero f
  | .binary op left right =>
    left.DividesByZero f ∨ right.DividesByZero f ∨ op = .div ∧ right.value f == 0

instance decidableDividesByZero (f : Frame) : (e : Expr) → Decidable (e.DividesByZero f)
  | .literal _ | .slot _ => isFalse id
  | .not operand => decidableDividesByZero f operand
  | .binary op left right =>
    have := decidableDividesByZero f left
    have := decidableDividesByZero f right
    inferInstanceAs (Decidable (_ ∨ _ ∨ op = .div ∧ right.value f == 0))

theorem length_code_not (operand : Expr) : operand.not.code.length = operand.code.length + 1 := by
  simp [code, Instr.words]

theorem length_code_binary (op : BinaryOp) (left right : Expr) :
    (binary op left right).code.length = left.code.length + right.code.length + 1 := by
  simp [code, Instr.words, Nat.add_assoc]

end Expr

-- ---------------------------------------------------------------------------
-- Code in place
-- ---------------------------------------------------------------------------

namespace Program

def HoldsAt (p : Program) (start : Nat) (words : List Word) : Prop :=
  ∃ before after, p.words.toList = before ++ words ++ after ∧ before.length = start

variable {p : Program} {start : Nat} {first second : List Word}

theorem HoldsAt.left (h : p.HoldsAt start (first ++ second)) : p.HoldsAt start first := by
  obtain ⟨before, after, hwords, hstart⟩ := h
  exact ⟨before, second ++ after, by simp [hwords], hstart⟩

theorem HoldsAt.right (h : p.HoldsAt start (first ++ second)) :
    p.HoldsAt (start + first.length) second := by
  obtain ⟨before, after, hwords, hstart⟩ := h
  exact ⟨before ++ first, after, by simp [hwords], by simp [hstart]⟩

theorem HoldsAt.item? {i : Instr} {addr : Word} (h : p.HoldsAt start i.words)
    (small : p.size < 2 ^ 60) (ha : addr.toInt = start) : p.item? addr = some (.instr i) := by
  obtain ⟨before, after, hwords, rfl⟩ := h
  have hget : ∀ k : Nat, p.words[k]? = (before ++ i.words ++ after)[k]? := by
    intro k
    rw [← hwords, Array.getElem?_toList]
  cases i with
  | plain op =>
    have hop : p.words[before.length]? = some op.code := by simp [hget, Instr.words]
    rw [item?_of_toInt small ha hop]
    simp [Item.read]
  | operand op value =>
    have hop : p.words[before.length]? = some op.code := by simp [hget, Instr.words]
    have hvalue : p.words[before.length + 1]? = some value := by
      simp [hget, Instr.words]
    rw [item?_of_toInt small ha hop, hvalue]
    simp [Item.read]

end Program

namespace State

variable {p : Program} {s : State} {start : Nat}

-- ---------------------------------------------------------------------------
-- One operator
-- ---------------------------------------------------------------------------

theorem executeBinary_of_operands {op : BinaryOp} {left right : Cell} {rest : List Cell}
    (hs : s.stack = right :: left :: rest) :
    s.executeBinary op =
      if op = .div ∧ right == 0 then { s with stack := rest }.stop .binaryOp
      else { s with stack := op.denote left right :: rest } := by
  rw [executeBinary, hs]
  dsimp only
  rw [BinaryOp.apply_eq_ite]
  by_cases hz : op = .div ∧ right == 0
  · rw [if_pos hz, if_pos hz]
  · rw [if_neg hz, if_neg hz]

theorem step_of_holdsAt {i : Instr} (small : p.size < 2 ^ 60) (placed : p.HoldsAt start i.words)
    (hr : s.isHalted = false) (hip : s.ip.toInt = start) :
    p.item? s.ip = some (.instr i) ∧
      ∃ behind : Word, behind.toInt = (start + i.words.length : Nat) ∧
        s.step p = { s with ip := behind }.execute i := by
  have hi := placed.item? small hip
  refine ⟨hi, i.opcode.after s.ip, ?_, step_of_instr hr hi⟩
  rw [Program.toInt_after small hi, hip, Instr.length_words]
  rfl

-- ---------------------------------------------------------------------------
-- All the code of an expression
-- ---------------------------------------------------------------------------

/-- After `n` steps from `s` there is a division with zero as its right operand,
and it stops the run. Beneath the operands of the division are those that wait
for other operators, and beneath these the operands of `s`. -/
structure StopsAtDivision (p : Program) (s : State) (n : Nat) (waiting : List Cell) : Prop where
  running : (s.run p n).isHalted = false
  item : p.item? (s.run p n).ip = some (.instr (.plain (.binary .div)))
  operands : ∃ left right, (s.run p n).stack = right :: left :: (waiting ++ s.stack) ∧ right == 0
  stopped : ∃ behind, ∀ m > n, s.run p m =
    { s with ip := behind, stack := waiting ++ s.stack, status := .faulted .binaryOp }

inductive Outcome (p : Program) (s : State) (start : Nat) (e : Expr) : Prop
  | computed (behind : Word) (defined : ¬ e.DividesByZero s.frame)
      (ip : behind.toInt = (start + e.code.length : Nat))
      (run : s.run p e.nodes = { s with ip := behind, stack := e.value s.frame :: s.stack })
  | divided {n : Nat} {waiting : List Cell} (undefined : e.DividesByZero s.frame)
      (early : n < e.nodes)
      (inside : start ≤ (s.run p n).ip.toInt ∧ (s.run p n).ip.toInt < (start + e.code.length : Nat))
      (stops : s.StopsAtDivision p n waiting)

/-- A value computed before the code that divides waits beneath what that code
leaves waiting. -/
theorem StopsAtDivision.of_run {m n : Nat} {waiting : List Cell} {ip : Word} {value : Cell}
    (hrun : s.run p m = { s with ip, stack := value :: s.stack })
    (h : (s.run p m).StopsAtDivision p n waiting) :
    s.StopsAtDivision p (m + n) (waiting ++ [value]) := by
  obtain ⟨running, item, operands, behind, stopped⟩ := h
  rw [← run_add] at running item operands
  have under : (s.run p m).stack = value :: s.stack := by rw [hrun]
  refine ⟨running, item, ?_, behind, fun k hk => ?_⟩
  · simpa [under] using operands
  · obtain ⟨j, rfl⟩ := Nat.exists_eq_add_of_le (Nat.le_of_lt hk)
    rw [Nat.add_assoc, run_add, stopped (n + j) (by omega), hrun]
    simp

theorem outcome_of_operands {op : BinaryOp} {left right : Expr} {middle : Word}
    (small : p.size < 2 ^ 60) (placed : p.HoldsAt start (Expr.binary op left right).code)
    (hr : s.isHalted = false) (hleft : ¬ left.DividesByZero s.frame)
    (hright : ¬ right.DividesByZero s.frame)
    (hmiddle : middle.toInt = (start + left.code.length + right.code.length : Nat))
    (hrun : s.run p (left.nodes + right.nodes) =
      { s with ip := middle, stack := right.value s.frame :: left.value s.frame :: s.stack }) :
    Outcome p s start (.binary op left right) := by
  have running : (s.run p (left.nodes + right.nodes)).isHalted = false := by
    rw [hrun]
    exact hr
  obtain ⟨hi, behind, hbehind, hstep⟩ := step_of_holdsAt small placed.right running (by
    rw [hrun, hmiddle, List.length_append, Nat.add_assoc])
  rw [← run_succ_last, hrun, execute, executePlain, executeBinary_of_operands rfl] at hstep
  by_cases zero : op = .div ∧ right.value s.frame == 0
  · rw [if_pos zero] at hstep
    obtain ⟨rfl, hz⟩ := zero
    have stops : s.StopsAtDivision p (left.nodes + right.nodes) [] := by
      refine ⟨running, hi, ⟨_, _, by rw [hrun]; rfl, hz⟩, behind, fun m hm => ?_⟩
      obtain ⟨k, rfl⟩ := Nat.exists_eq_add_of_lt hm
      rw [Nat.add_right_comm, run_add, hstep, run_of_isHalted p k rfl]
      rfl
    refine .divided (.inr (.inr ⟨rfl, hz⟩)) (Nat.lt_succ_self _) ⟨?_, ?_⟩ stops
    · rw [hrun, hmiddle]
      omega
    · rw [hrun, hmiddle, Expr.length_code_binary]
      omega
  · rw [if_neg zero] at hstep
    refine .computed behind ?_ ?_ hstep
    · rintro (h | h | h)
      · exact hleft h
      · exact hright h
      · exact zero h
    · rw [hbehind, List.length_append, Expr.length_code_binary]
      rfl

theorem outcome (small : p.size < 2 ^ 60) (e : Expr) (placed : p.HoldsAt start e.code)
    (hr : s.isHalted = false) (hip : s.ip.toInt = start) : Outcome p s start e := by
  induction e generalizing s start with
  | literal value =>
    obtain ⟨-, behind, hbehind, hstep⟩ := step_of_holdsAt small placed hr hip
    exact .computed behind id hbehind (by rw [Expr.nodes, run_succ, hstep]; rfl)
  | slot k =>
    obtain ⟨-, behind, hbehind, hstep⟩ := step_of_holdsAt small placed hr hip
    exact .computed behind id hbehind (by rw [Expr.nodes, run_succ, hstep]; rfl)
  | not operand ih =>
    cases ih placed.left hr hip with
    | divided undefined early inside stops =>
      refine .divided undefined (Nat.lt_succ_of_lt early) ⟨inside.1, ?_⟩ stops
      rw [Expr.length_code_not]
      omega
    | computed middle defined hmiddle hrun =>
      obtain ⟨-, behind, hbehind, hstep⟩ := step_of_holdsAt (i := .plain .not)
        (s := s.run p operand.nodes) small placed.right (by rw [hrun]; exact hr)
        (by rw [hrun, hmiddle])
      refine .computed behind defined ?_ ?_
      · rw [hbehind, Expr.code, List.length_append, Nat.add_assoc]
      · rw [Expr.nodes, run_succ_last, hstep, hrun]
        rfl
  | binary op left right ihl ihr =>
    have hlength := Expr.length_code_binary op left right
    cases ihl placed.left.left hr hip with
    | divided undefined early inside stops =>
      refine .divided (.inl undefined) ?_ ⟨inside.1, by omega⟩ stops
      rw [Expr.nodes]
      omega
    | computed middle hleft hmiddle hrunl =>
      -- the right operand is computed on top of the left one, with the same variables
      have frame : (s.run p left.nodes).frame = s.frame := by rw [hrunl]
      have running : (s.run p left.nodes).isHalted = false := by rw [hrunl]; exact hr
      cases ihr placed.left.right running (by rw [hrunl, hmiddle]) with
      | @divided n _ undefined early inside stops =>
        rw [frame] at undefined
        rw [← run_add] at inside
        refine .divided (.inr (.inl undefined)) ?_ ⟨by omega, by omega⟩ (stops.of_run hrunl)
        rw [Expr.nodes]
        omega
      | computed behind hright hbehind hrunr =>
        rw [← run_add, frame, hrunl] at hrunr
        rw [frame] at hright
        exact outcome_of_operands small placed hr hleft hright hbehind hrunr

/-- Wherever the code of an expression stands and whatever is on the stack, it
takes a step for each node to put the value of the expression on top and leave
everything else as it was. If a division meets zero, it is reached within as
many steps, and the run stops there with the variables and callers as they were
and nothing of the old operands gone. -/
theorem run_code (small : p.size < 2 ^ 60) (e : Expr) (placed : p.HoldsAt start e.code)
    (hr : s.isHalted = false) (hip : s.ip.toInt = start) :
    (¬ e.DividesByZero s.frame →
      ∃ behind : Word, behind.toInt = (start + e.code.length : Nat) ∧
        s.run p e.nodes = { s with ip := behind, stack := e.value s.frame :: s.stack } ∧
        (s.run p e.nodes).isHalted = false) ∧
    (e.DividesByZero s.frame →
      ∃ n < e.nodes, ∃ waiting, s.StopsAtDivision p n waiting ∧
        start ≤ (s.run p n).ip.toInt ∧ (s.run p n).ip.toInt < (start + e.code.length : Nat)) := by
  cases outcome small e placed hr hip with
  | computed behind defined hbehind hrun =>
    refine ⟨fun _ => ⟨behind, hbehind, hrun, ?_⟩, fun undefined => absurd undefined defined⟩
    rw [hrun]
    exact hr
  | divided undefined early inside stops =>
    exact ⟨fun defined => absurd undefined defined, fun _ => ⟨_, early, _, stops, inside⟩⟩

def sevenLessQuotient (divisor : Expr) : Expr :=
  .binary .sub (.literal 7) (.binary .div (.literal 2) divisor)

def slotTimesNegation : Expr := .binary .mul (.slot 3) (.not (.slot 2))

def aboveNine (e : Expr) : Program := .ofList ([1, 4, 17, 3, 1, 9] ++ e.code)

def onNine (e : Expr) : State := (initial (aboveNine e)).run (aboveNine e) 3

/-- Nothing is stored in slot 2, so it reads as zero and its negation is one. -/
theorem sevenLessQuotient_runs :
    ((onNine (sevenLessQuotient slotTimesNegation)).run
      (aboveNine (sevenLessQuotient slotTimesNegation)) 8).stack = [6.5, 9] ∧
    ((onNine (sevenLessQuotient (.slot 2))).run
      (aboveNine (sevenLessQuotient (.slot 2))) 5).fault? = some .binaryOp := by
  have placed : ∀ e : Expr, (aboveNine e).HoldsAt 6 e.code :=
    fun e => ⟨[1, 4, 17, 3, 1, 9], [], by simp [aboveNine], rfl⟩
  constructor
  · obtain ⟨computed, -⟩ := run_code (s := onNine (sevenLessQuotient slotTimesNegation))
      (by decide) (sevenLessQuotient slotTimesNegation) (placed _) (by decide +kernel)
      (by decide +kernel)
    obtain ⟨behind, -, hrun, -⟩ := computed (by decide +kernel)
    have value : (sevenLessQuotient slotTimesNegation).value
        (onNine (sevenLessQuotient slotTimesNegation)).frame = 6.5 := by decide +kernel
    have under : (onNine (sevenLessQuotient slotTimesNegation)).stack = [9] := by decide +kernel
    exact (congrArg State.stack hrun).trans (congrArg₂ List.cons value under)
  · obtain ⟨-, divided⟩ := run_code (s := onNine (sevenLessQuotient (.slot 2)))
      (by decide) (sevenLessQuotient (.slot 2)) (placed _) (by decide +kernel) (by decide +kernel)
    obtain ⟨n, early, _, stops, -⟩ := divided (by decide +kernel)
    obtain ⟨_, stopped⟩ := stops.stopped
    exact congrArg State.fault? (stopped 5 early)

end State

end StackMachine
