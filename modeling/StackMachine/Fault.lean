/-!
# Faults

Why a run was stopped. A dispatch fault means that no complete instruction
could be read; the others that an instruction found its operands missing or
unfit.
-/

namespace StackMachine

inductive Fault where
  | binaryOp | unaryOp | stackOp | dispatch
  deriving DecidableEq, Repr

def Fault.message : Fault → String
  | .binaryOp => "binary operation fault"
  | .unaryOp => "unary operation fault"
  | .stackOp => "stack operation fault"
  | .dispatch => "dispatch fault"

end StackMachine
