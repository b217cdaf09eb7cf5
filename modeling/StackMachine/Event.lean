import StackMachine.Listing
import StackMachine.Run

/-!
# Events

What a run reports about itself: each instruction before it is executed, calls
and returns, and how the run ends. Events are of three levels of detail.
-/

namespace StackMachine

open Text

inductive Event where
  | executing (addr : Word) (op : Opcode)
  | halted (addr : Word) (depth : Nat)
  | calling (target addr returnAddress : Word)
  | returning (addr returnAddress : Word)
  | faulted (fault : Fault) (addr : Word)
  | code (addr : Word)
  deriving DecidableEq, Repr

inductive Level where
  | warn | debug | trace
  deriving DecidableEq, Repr

def Level.rank : Level → Nat
  | .warn => 0
  | .debug => 1
  | .trace => 2

def Level.includes (level other : Level) : Bool := other.rank ≤ level.rank

namespace Event

def level : Event → Level
  | .executing .. => .trace
  | .halted .. => .debug
  | .calling .. => .debug
  | .returning .. => .debug
  | .faulted .. => .warn
  | .code .. => .debug

def message (p : Program) : Event → String
  | .executing addr op =>
    "[" ++ String.ofList (Decimal.padded 4 (Decimal.ofInt addr.toInt)) ++ "] " ++ op.mnemonic
  | .halted addr depth =>
    "Halted at " ++ addr.toDecimal ++ " with stack depth " ++ String.ofList (Decimal.ofNat depth)
  | .calling target addr returnAddress =>
    "Calling " ++ target.toDecimal ++ " from " ++ addr.toDecimal ++ ", returning to " ++
      returnAddress.toDecimal
  | .returning addr returnAddress =>
    "Returning from " ++ addr.toDecimal ++ " to " ++ returnAddress.toDecimal
  | .faulted fault addr => fault.message ++ " at " ++ addr.toDecimal ++ ", halting"
  | .code addr => "Code:\n" ++ p.listing (some addr)

end Event

namespace Level

def select (level : Level) (events : List Event) : List Event :=
  events.filter (level.includes ·.level)

@[simp] theorem select_nil (level : Level) : level.select [] = [] := rfl

@[simp] theorem select_append (level : Level) (events more : List Event) :
    level.select (events ++ more) = level.select events ++ level.select more :=
  List.filter_append ..

theorem select_trace (events : List Event) : Level.trace.select events = events := by
  have all : ∀ e : Event, Level.trace.includes e.level = true := by
    intro e
    cases e <;> rfl
  exact List.filter_eq_self.2 fun e _ => all e

end Level

namespace State

/-- The opcode found, also if its operand is missing. -/
def announcement (p : Program) (s : State) : List Event :=
  ((p.item? s.ip).bind Item.opcode?).toList.map (.executing s.ip)

/-- Calls, returns and regular halts. A return that has no caller is none. -/
def notices (p : Program) (s : State) : List Event :=
  match p.item? s.ip with
  | some (.instr (.plain .halt)) => [.halted s.ip s.depth]
  | some (.instr (.plain .ret)) =>
    s.callers.head?.toList.map fun caller => .returning s.ip caller.returnAddress
  | some (.instr (.operand .call target)) =>
    [.calling target s.ip ((Opcode.operand .call).after s.ip)]
  | _ => []

def faultReport (p : Program) (s : State) : List Event :=
  match (s.step p).fault? with
  | some fault => [.faulted fault s.ip, .code s.ip]
  | none => []

def events (p : Program) (s : State) : List Event :=
  if s.isHalted then [] else s.announcement p ++ s.notices p ++ s.faultReport p

def log (p : Program) (n : Nat) (s : State) : List Event := (s.visited p n).flatMap (·.events p)

theorem log_succ (p : Program) (n : Nat) (s : State) :
    s.log p (n + 1) = s.events p ++ (s.step p).log p n := by
  cases hr : s.isHalted with
  | false => simp [log, visited, hr]
  | true => cases n <;> simp [log, visited, events, hr, step_of_isHalted p hr]

theorem log_succ_last (p : Program) (n : Nat) (s : State) :
    s.log p (n + 1) = s.log p n ++ (s.run p n).events p := by
  induction n generalizing s with
  | zero =>
    rw [log_succ]
    simp [log, visited]
  | succ n ih => rw [log_succ, ih, log_succ, run_succ, List.append_assoc]

end State

end StackMachine
