import StackMachine.State

/-!
# Execution

One step reads the item at the current address, moves past it and executes the
instruction found there. The move comes first, so jumps and calls override it,
and it happens also where reading fails.
-/

namespace StackMachine

def Opcode.after (op : Opcode) (addr : Word) : Word :=
  if op.hasOperand then addr.next.next else addr.next

/-- The address after the words read with an item at `addr`. A cut-off operand
counts as read. -/
def Item.after (item : Item) (addr : Word) : Word :=
  match item.opcode? with
  | some op => op.after addr
  | none => addr.next

namespace State

/-- The left operand lies below the right one. Operands are gone after a fault,
also where only one was there. -/
def executeBinary (s : State) (op : BinaryOp) : State :=
  match s.stack with
  | right :: left :: rest =>
    match op.apply left right with
    | some value => { s with stack := value :: rest }
    | none => { s with stack := rest }.stop .binaryOp
  | _ => { s with stack := [] }.stop .binaryOp

def executePlain (s : State) : PlainOp → State
  | .halt => { s with status := .halted }
  | .pop =>
    match s.stack with
    | _ :: rest => { s with stack := rest }
    | [] => s.stop .stackOp
  | .dup =>
    match s.stack with
    | top :: rest => { s with stack := top :: top :: rest }
    | [] => s.stop .stackOp
  | .not =>
    match s.stack with
    | top :: rest => { s with stack := .ofBool top.isZero :: rest }
    | [] => s.stop .unaryOp
  | .ret =>
    match s.callers with
    | caller :: rest =>
      { s with ip := caller.returnAddress, frame := caller.frame, callers := rest }
    | [] => s.stop .stackOp
  | .binary op => s.executeBinary op

def executeOperand (s : State) (value : Word) : OperandOp → State
  | .push => { s with stack := .ofWord value :: s.stack }
  | .jmp => { s with ip := value }
  | .jif =>
    match s.stack with
    | top :: rest => { s with ip := if top.isTrue then value else s.ip, stack := rest }
    | [] => s.stop .stackOp
  | .load => { s with stack := s.frame.get value :: s.stack }
  | .store =>
    match s.stack with
    | top :: rest => { s with stack := rest, frame := s.frame.set value top }
    | [] => s.stop .stackOp
  | .call =>
    { s with ip := value, frame := .empty, callers := ⟨s.ip, s.frame⟩ :: s.callers }

/-- Executes an instruction in a state that has already moved past it. -/
def execute (s : State) : Instr → State
  | .plain op => s.executePlain op
  | .operand op value => s.executeOperand value op

def step (p : Program) (s : State) : State :=
  if s.isHalted then s
  else match p.item? s.ip with
    | some item =>
      let moved := { s with ip := item.after s.ip }
      match item with
      | .instr i => moved.execute i
      | _ => moved.stop .dispatch
    | none => { s with ip := s.ip.next }.stop .dispatch

theorem step_of_isHalted (p : Program) {s : State} (h : s.isHalted = true) : s.step p = s := by
  simp [step, h]

theorem step_of_instr {p : Program} {s : State} {i : Instr} (hr : s.isHalted = false)
    (hi : p.item? s.ip = some (.instr i)) :
    s.step p = { s with ip := i.opcode.after s.ip }.execute i := by
  simp [step, hr, hi, Item.after, Item.opcode?]

theorem step_of_truncated {p : Program} {s : State} {op : OperandOp} (hr : s.isHalted = false)
    (hi : p.item? s.ip = some (.truncated op)) :
    s.step p = { s with ip := s.ip.next.next }.stop .dispatch := by
  simp [step, hr, hi, Item.after, Item.opcode?, Opcode.after, Opcode.hasOperand]

theorem step_of_unknown {p : Program} {s : State} {w : Word} (hr : s.isHalted = false)
    (hi : p.item? s.ip = some (.unknown w)) :
    s.step p = { s with ip := s.ip.next }.stop .dispatch := by
  simp [step, hr, hi, Item.after, Item.opcode?]

theorem step_of_none {p : Program} {s : State} (hr : s.isHalted = false)
    (hi : p.item? s.ip = none) : s.step p = { s with ip := s.ip.next }.stop .dispatch := by
  simp [step, hr, hi]

end State

end StackMachine
